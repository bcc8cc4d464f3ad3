/-
# The policer

The packet handler of `nf/policer`: a token bucket for each destination
address of the packets from the WAN, in a table whose entries expire. The
numbers are natural numbers below 2^64, with the reductions modulo 2^64 where
the C arithmetic can wrap.

The bound of a token bucket holds on every run exactly when `BoundOk`: the
bucket is full after `burst / rate` units, which is early if the division
leaves a rest of 2 or more; and an entry that has expired is created again
with a full bucket, which is early if the expiration time is too short for
the burst. `policer_bound_iff` is the theorem.
-/
import Klint.Lib.TokenBucket
import Klint.Net.Packet
import Klint.Os.Config
import Klint.Structs.KeyedPoolRefine

namespace Klint
namespace Policer

open ExpiringSet

/-- `struct policer_bucket`. -/
structure Bucket where
  size : ℕ
  time : ℕ
  deriving DecidableEq, Repr, Inhabited

/-- The static variables; `addresses` is `addresses`, `map` and `pool`. -/
structure State where
  wanDevice : UInt16
  rate : ℕ
  burst : ℕ
  buckets : List Bucket
  addresses : KeyedPool UInt32

/-- `1000000000ull * burst / rate`. -/
def expiration (rate burst : ℕ) : ℕ := 1000000000 * burst % 2 ^ 64 / rate

def nfInit (items : ConfigItems) (devicesCount : UInt16) : Option State :=
  if devicesCount ≠ 2 then none else do
    let wanDevice ← osConfigGetDevice items "wan device" devicesCount
    let rate ← osConfigGetU64 items "rate"
    let burst ← osConfigGetU64 items "burst"
    let maxFlows ← osConfigGetSize items "max flows"
    if rate = 0 ∨ burst = 0 then none
    else
      let addresses ← keyedPoolAlloc UInt32 4 maxFlows (expiration rate.toNat burst.toNat)
      return { wanDevice := wanDevice, rate := rate.toNat, burst := burst.toNat,
               buckets := List.replicate maxFlows default, addresses := addresses }

/-- The size of a bucket `timeDiff` after its time. -/
def refill (rate burst size timeDiff : ℕ) : ℕ :=
  if timeDiff < burst / rate then
    let size := (size + timeDiff * rate % 2 ^ 64) % 2 ^ 64
    if burst < size then burst else size
  else burst

def State.bucket (s : State) (index : ℕ) : Bucket := s.buckets.getD index default

variable (hash : UInt32 → UInt32)

/-- The policing of a packet to an address: the state after it, and whether
the packet goes on. -/
def police (s : State) (time length : ℕ) (address : UInt32) : State × Bool :=
  match s.addresses.find hash address with
  | some index =>
    let bucket := s.bucket index
    let size := refill s.rate s.burst bucket.size (sub64 time bucket.time)
    let s := { s with addresses := s.addresses.refresh time index }
    if length < size then ({ s with buckets := s.buckets.set index ⟨size - length, time⟩ }, true)
    else ({ s with buckets := s.buckets.set index ⟨size, time⟩ }, false)  -- packet too big
  | none =>
    if s.burst < length then (s, false)
    else
      match s.addresses.insert hash time address with
      | (none, t) => ({ s with addresses := t }, false)
      | (some index, t) =>
        ({ s with addresses := t, buckets := s.buckets.set index ⟨s.burst - length, time⟩ }, true)

/-- The IPv4 header, if there is one. -/
def ipv4Header (packet : NetPacket) : Option ℕ := do
  let ether ← netGetEtherHeader packet
  netGetIpv4Header packet.data ether

/-- `net_transmit(packet, 1 - packet->device, 0)`. -/
def transmit (packet : NetPacket) : NetTransmit where
  data := packet.data
  length := packet.length
  device := 1 - packet.device
  flags := .none

def nfHandle (s : State) (packet : NetPacket) : State × Option NetTransmit :=
  match ipv4Header packet with
  | none => (s, none)
  | some ipv4 =>
    if packet.device = s.wanDevice then
      match police hash s packet.time packet.length (dstAddr packet.data ipv4) with
      | (s, false) => (s, none)
      | (s, true) => (s, some (transmit packet))
    else (s, some (transmit packet))

/-! ### Runs -/

/-- The address a packet from the WAN is policed for. -/
def policedAddr (s : State) (packet : NetPacket) : Option UInt32 :=
  match ipv4Header packet with
  | none => none
  | some ipv4 => if packet.device = s.wanDevice then some (dstAddr packet.data ipv4) else none

/-- The total length of the packets from the WAN to an address that a run
forwards in the window from `t1` to `t2`. -/
def forwarded (address : UInt32) (t1 t2 : ℕ) (s : State) : List NetPacket → ℕ
  | [] => 0
  | p :: ps =>
    (if policedAddr s p = some address ∧ t1 ≤ p.time ∧ p.time ≤ t2 ∧ (nfHandle hash s p).2.isSome then p.length
      else 0) + forwarded address t1 t2 (nfHandle hash s p).1 ps

/-- A run of packets at 64-bit times that do not decrease, below `TIME_MAX`. -/
structure Timed (now : ℕ) (ps : List NetPacket) : Prop where
  bounds : ∀ p ∈ ps, now ≤ p.time ∧ p.time < timeMax
  mono : ps.Pairwise fun p q => p.time ≤ q.time

/-- The bound of the token bucket, for every run, address and window. -/
def Bounded (s : State) : Prop :=
  ∀ ps, Timed 0 ps → ∀ address t1 t2, t1 ≤ t2 → forwarded hash address t1 t2 s ps ≤ s.burst + s.rate * (t2 - t1)

/-- The condition on the configuration: a table without entries forwards
nothing; else the rest of the division is at most 1, and the tokens of a
burst are gained before an address can be evicted and created again. In a
table of one entry the entry that evicts it must expire too. -/
def BoundOk (rate burst maxFlows : ℕ) : Prop :=
  maxFlows = 0 ∨ burst % rate ≤ 1 ∧
    burst ≤ rate * ((if maxFlows = 1 then 2 else 1) * (expiration rate burst + 1))

instance (rate burst maxFlows : ℕ) : Decidable (BoundOk rate burst maxFlows) := by
  unfold BoundOk; infer_instance

/-! ### One bucket -/

theorem refill_le {rate burst size timeDiff : ℕ} : refill rate burst size timeDiff ≤ burst := by
  unfold refill
  split_ifs with h
  · simp only
    split_ifs with h'
    · exact le_refl _
    · omega
  · exact le_refl _

/-- No refill gives more than was gained, up to the rest of the division. A
sum that wraps only makes the bucket smaller. -/
theorem refill_gain {rate burst size timeDiff : ℕ} (hr : burst % rate ≤ 1) :
    refill rate burst size timeDiff ≤ size + rate * timeDiff ∨
      refill rate burst size timeDiff ≤ rate * timeDiff + 1 := by
  unfold refill
  split_ifs with h
  · left
    have h1 := Nat.mod_le (timeDiff * rate) (2 ^ 64)
    have h2 := Nat.mod_le (size + timeDiff * rate % 2 ^ 64) (2 ^ 64)
    rw [Nat.mul_comm rate]
    simp only
    split_ifs <;> omega
  · right
    have h1 := Nat.div_add_mod burst rate
    have h2 := Nat.mul_le_mul_left rate (Nat.not_lt.mp h)
    omega

/-! ### The invariant of a window -/

variable {hash}

/-- The tokens spent for the address `a` since `t1`, and its bucket: within
the bound at the last time of `a`, if that is in the window. -/
structure Good (hash : UInt32 → UInt32) (E n B R now : ℕ) (last : UInt32 → Option ℕ) (a : UInt32)
    (t1 spent : ℕ) (s : State) : Prop where
  rate_eq : s.rate = R
  burst_eq : s.burst = B
  refines : s.addresses.Refines hash E n now last
  buckets_length : s.buckets.length = n
  le_now : ∀ b t, last b = some t → t ≤ now
  bucket_time : ∀ i t, s.addresses.pool.items i = some t → (s.bucket i).time = t
  bucket_size : ∀ i t, s.addresses.pool.items i = some t → (s.bucket i).size ≤ B
  gone : n = 1 → ∀ b t, last b = some t → (∀ i r, s.addresses.pool.items i = some r → s.addresses.key i ≠ b) →
    ∃ t0, s.addresses.pool.items 0 = some t0 ∧ t + (E + 1) ≤ t0
  early : (∀ t, last a = some t → t < t1) → spent = 0
  total : ∀ t, last a = some t → t1 ≤ t → spent ≤ B + R * (t - t1)
  within : ∀ i t, s.addresses.pool.items i = some t → s.addresses.key i = a → t1 ≤ t →
    TokenBucket.Within B R t1 t spent (s.bucket i).size

namespace Good

variable {E n B R now : ℕ} {last : UInt32 → Option ℕ} {a : UInt32} {t1 spent : ℕ} {s : State}

theorem later (h : Good hash E n B R now last a t1 spent s) {time : ℕ} (hle : now ≤ time) :
    Good hash E n B R time last a t1 spent s :=
  { h with refines := h.refines.later hle, le_now := fun b t hb => (h.le_now b t hb).trans hle }

theorem bucket_set (h : Good hash E n B R now last a t1 spent s) {i : ℕ} (hi : i < n) (t : KeyedPool UInt32)
    (b : Bucket) (j : ℕ) :
    ({ s with addresses := t, buckets := s.buckets.set i b } : State).bucket j =
      if j = i then b else s.bucket j := by
  simp only [State.bucket, List.getD_eq_getElem?_getD]
  by_cases hj : j = i
  · subst hj; simp [List.getElem?_set_self (h.buckets_length ▸ hi)]
  · simp [List.getElem?_set_ne (Ne.symm hj), hj]

/-- Binding an index to an address at the current time, with a bucket that is
within the bound if the address is `a`. -/
theorem bind (h : Good hash E n B R now last a t1 spent s) {address : UInt32} {i size spent' : ℕ} (hi : i < n)
    {t : KeyedPool UInt32} (href : t.Refines hash E n now (Function.update last address (some now)))
    (hitems : t.pool.items = Function.update s.addresses.pool.items i (some now))
    (hkey : t.key = Function.update s.addresses.key i address) (hsize : size ≤ B)
    (hgap : n = 1 → ∀ b t, b ≠ address → last b = some t → t + (E + 1) ≤ now)
    (hother : address ≠ a → spent' = spent) (hearly : address = a → now < t1 → spent' = 0)
    (hwithin : address = a → t1 ≤ now → TokenBucket.Within B R t1 now spent' size) :
    Good hash E n B R now (Function.update last address (some now)) a t1 spent'
      { s with addresses := t, buckets := s.buckets.set i ⟨size, now⟩ } where
  rate_eq := h.rate_eq
  burst_eq := h.burst_eq
  refines := href
  buckets_length := by rw [List.length_set]; exact h.buckets_length
  le_now := fun b r hb => by
    by_cases hba : b = address
    · rw [hba, Function.update_self] at hb; cases hb; exact le_refl _
    · rw [Function.update_of_ne hba] at hb; exact h.le_now b r hb
  bucket_time := fun j r hj => by
    rw [h.bucket_set hi]
    change t.pool.items j = some r at hj
    rw [hitems] at hj
    by_cases hji : j = i
    · rw [hji, Function.update_self] at hj; cases hj; rw [if_pos hji]
    · rw [Function.update_of_ne hji] at hj; rw [if_neg hji]; exact h.bucket_time j r hj
  bucket_size := fun j r hj => by
    rw [h.bucket_set hi]
    change t.pool.items j = some r at hj
    rw [hitems] at hj
    by_cases hji : j = i
    · rw [if_pos hji]; exact hsize
    · rw [Function.update_of_ne hji] at hj; rw [if_neg hji]; exact h.bucket_size j r hj
  gone := fun hn b r hb hno => by
    have hi0 : i = 0 := by omega
    subst hi0
    refine ⟨now, by rw [hitems, Function.update_self], hgap hn b r (fun hba => ?_) ?_⟩
    · exact hno 0 now (by rw [hitems, Function.update_self]) (by rw [hkey, Function.update_self, hba])
    · by_cases hba : b = address
      · exact absurd (by rw [hkey, Function.update_self, hba])
          (hno 0 now (by rw [hitems, Function.update_self]))
      · rwa [Function.update_of_ne hba] at hb
  early := fun hall => by
    by_cases ha : address = a
    · exact hearly ha (hall now (by rw [ha, Function.update_self]))
    · rw [hother ha]
      exact h.early fun r hr => hall r (by rw [Function.update_of_ne (Ne.symm ha), hr])
  total := fun r hr h1 => by
    by_cases ha : address = a
    · rw [ha, Function.update_self] at hr; cases hr
      exact (hwithin ha h1).spent_le
    · rw [Function.update_of_ne (Ne.symm ha)] at hr
      rw [hother ha]
      exact h.total r hr h1
  within := fun j r hj hk h1 => by
    rw [h.bucket_set hi]
    change t.pool.items j = some r at hj
    change t.key j = a at hk
    rw [hitems] at hj
    rw [hkey] at hk
    by_cases hji : j = i
    · rw [hji, Function.update_self] at hj hk; cases hj
      rw [if_pos hji]
      exact hwithin hk h1
    · rw [Function.update_of_ne hji] at hj hk
      rw [if_neg hji]
      have ha : address ≠ a := fun hc => by
        -- the address is at `i` only
        refine hji (href.represents.inj j i r now ?_ ?_ ?_)
        · rw [hitems, Function.update_of_ne hji, hj]
        · rw [hitems, Function.update_self]
        · rw [hkey, Function.update_of_ne hji, Function.update_self, hk, hc]
      rw [hother ha]
      exact h.within j r hj hk h1

/-- The tokens spent for `a` after a packet. -/
abbrev spentAfter (a address : UInt32) (t1 time length spent : ℕ) (fits : Bool) : ℕ :=
  spent + if address = a ∧ t1 ≤ time ∧ fits = true then length else 0

theorem of_not_fits (h : Good hash E n B R now last a t1 spent s) (address : UInt32) (length : ℕ) :
    Good hash E n B R now last a t1 (spentAfter a address t1 now length spent false) s := by
  simpa [spentAfter] using h

/-- A packet to an address that has a bucket. -/
theorem police_found (h : Good hash E n B R now last a t1 spent s) (ht : now ≠ timeMax) (hnow : now < 2 ^ 64)
    (hr : B % R ≤ 1) {address : UInt32} {length i : ℕ} (hf : s.addresses.find hash address = some i) :
    Good hash E n B R now (touch (young E) n last now address) a t1
      (spentAfter a address t1 now length spent (police hash s now length address).2)
      (police hash s now length address).1 := by
  obtain ⟨⟨ts, hts⟩, hkey⟩ := h.refines.inv.find_iff.mp hf
  obtain ⟨-, hnf, href⟩ := h.refines.refresh_found ht hf
  obtain ⟨-, hitems⟩ := h.refines.inv.refresh ht (by rw [hts]; rfl : (s.addresses.pool.items i).isSome)
  rw [touch_of_not_full hnf] at href ⊢
  have hlast : last address = some ts := hkey ▸ h.refines.represents.stored i ts hts
  have hle : ts ≤ now := h.le_now address ts hlast
  have hi : i < n := h.refines.represents.lt i ts hts
  obtain rfl := h.burst_eq
  obtain rfl := h.rate_eq
  set size := refill s.rate s.burst (s.bucket i).size (now - ts) with hsize
  have hdiff : sub64 now (s.bucket i).time = now - ts := by
    rw [h.bucket_time i ts hts, sub64_of_le hle hnow]
  -- the bucket of `a` after the refill
  have hrefill : address = a → t1 ≤ now → TokenBucket.Within s.burst s.rate t1 now spent size := by
    rintro rfl h1
    rcases Nat.lt_or_ge ts t1 with hlt | hge
    · rw [h.early fun r hr => by rw [hlast] at hr; cases hr; exact hlt]
      exact TokenBucket.start refill_le
    · exact (h.within i ts hts hkey hge).refill hge hle refill_le (refill_gain hr)
  have hearly : address = a → now < t1 → spent = 0 := by
    rintro rfl h1
    exact h.early fun r hr => by rw [hlast] at hr; cases hr; omega
  have hgap : n = 1 → ∀ b t, b ≠ address → last b = some t → t + (E + 1) ≤ now := by
    intro hn b t hb hbt
    obtain ⟨t0, h0, hle0⟩ := h.gone hn b t hbt fun j r hj hk => by
      have hlt := h.refines.represents.lt j r hj
      have hji : j = i := by omega
      exact hb (by rw [← hk, hji, hkey])
    have := h.le_now _ t0 (h.refines.represents.stored 0 t0 h0)
    omega
  have hbind := fun (size' spent' : ℕ) => @bind hash E n s.burst s.rate now last a t1 spent s h address i size'
    spent' hi _ href hitems
    (by rw [← hkey, Function.update_eq_self]; rfl)
  have hpol : police hash s now length address =
      if length < size then
        ({ s with addresses := s.addresses.refresh now i, buckets := s.buckets.set i ⟨size - length, now⟩ }, true)
      else ({ s with addresses := s.addresses.refresh now i, buckets := s.buckets.set i ⟨size, now⟩ }, false) := by
    unfold police
    simp only [hf, hdiff, hsize]
  rw [hpol]
  split_ifs with hl
  · refine hbind _ _ (by have : size ≤ s.burst := refill_le; omega) hgap (fun ha => ?_) (fun ha h1 => ?_)
      fun ha h1 => ?_
    · simp [spentAfter, ha]
    · simp [spentAfter, hearly ha h1, Nat.not_le.mpr h1]
    · simp only [spentAfter, ha, h1, and_self, ↓reduceIte]
      exact (hrefill ha h1).spend hl
  · refine hbind _ _ refill_le hgap (fun ha => ?_) (fun ha h1 => ?_) fun ha h1 => ?_
    · simp [spentAfter, ha]
    · simp [spentAfter, hearly ha h1]
    · simp only [spentAfter, Bool.false_eq_true, and_false, ↓reduceIte, Nat.add_zero]
      exact hrefill ha h1

/-- A packet to an address that has none. -/
theorem police_absent (h : Good hash E n B R now last a t1 spent s) (ht : now ≠ timeMax)
    (hB : n ≠ 0 → B ≤ R * ((if n = 1 then 2 else 1) * (E + 1))) {address : UInt32} {length : ℕ}
    (hf : s.addresses.find hash address = none) :
    ∃ last', Good hash E n B R now last' a t1
      (spentAfter a address t1 now length spent (police hash s now length address).2)
      (police hash s now length address).1 := by
  obtain rfl := h.burst_eq
  unfold police
  simp only [hf]
  split_ifs with hL
  · exact ⟨last, h.of_not_fits address length⟩
  obtain ⟨-, href, hcases⟩ := h.refines.insert_absent ht hf
  rcases hins : s.addresses.insert hash now address with ⟨out, t⟩
  rw [hins] at href hcases
  rcases hcases with ⟨i, hout, hi, hfree, hitems, hkey, hnf⟩ | ⟨he, -⟩
  swap
  · simp only [Prod.mk.injEq] at he
    obtain ⟨rfl, rfl⟩ := he
    exact ⟨last, h.of_not_fits address length⟩
  simp only at hout href
  subst hout
  rw [touch_of_not_full hnf] at href
  have habs := h.refines.inv.find_none.mp hf
  -- an address evicted, now or before, was last used `E + 1` before the index was taken
  have hold : ∀ r, ¬ poolYoung now E r → r + (E + 1) ≤ now := fun r hr => by unfold poolYoung at hr; omega
  have hgone : ∀ b r, last b = some r → (∀ j r', s.addresses.pool.items j = some r' → s.addresses.key j ≠ b) →
      r + (if n = 1 then 2 else 1) * (E + 1) ≤ now := by
    intro b r hb hno
    split_ifs with hn
    · obtain ⟨t0, h0, hle⟩ := h.gone hn b r hb hno
      have hi0 : i = 0 := by omega
      have := hold t0 (hfree t0 (hi0 ▸ h0))
      omega
    · rcases h.refines.represents.gone b r hb with ⟨j, hj, hk⟩ | hy
      · exact absurd hk (hno j r hj)
      · have := hold r hy; omega
  refine ⟨_, h.bind hi href hitems hkey (Nat.sub_le s.burst length) (fun hn b r hb hbr => ?_) (fun ha => ?_)
    (fun ha h1 => ?_) fun ha h1 => ?_⟩
  · by_cases hst : ∃ j r', s.addresses.pool.items j = some r' ∧ s.addresses.key j = b
    · obtain ⟨j, r', hj, hk⟩ := hst
      have hlt := h.refines.represents.lt j r' hj
      have hji : j = i := by omega
      have hrr := h.refines.represents.stored j r' hj
      rw [hk, hbr, Option.some.injEq] at hrr
      subst hrr
      exact hold r (hfree r (hji ▸ hj))
    · have := hgone b r hbr fun j r' hj hk => hst ⟨j, r', hj, hk⟩
      rw [if_pos hn] at this
      omega
  · simp [spentAfter, ha]
  · have h0 : spent = 0 := h.early fun r hr => lt_of_le_of_lt (h.le_now a r hr) h1
    simp [spentAfter, h0, Nat.not_le.mpr h1]
  · simp only [spentAfter, ha, h1, and_self, ↓reduceIte]
    subst ha
    by_cases hlate : ∃ r, last address = some r ∧ t1 ≤ r
    · obtain ⟨r, hr, h1r⟩ := hlate
      have hg := hgone address r hr habs
      have hgain : R * ((if n = 1 then 2 else 1) * (E + 1)) ≤ R * (now - r) := Nat.mul_le_mul_left R (by omega)
      exact TokenBucket.renew (h.total r hr h1r) h1r (h.le_now _ r hr) ((hB (by omega)).trans hgain) (by omega)
    · rw [h.early fun r hr => by by_contra hc; exact hlate ⟨r, hr, by omega⟩, Nat.zero_add]
      exact TokenBucket.create (by omega)

/-- One packet, under the condition. -/
theorem police (h : Good hash E n B R now last a t1 spent s) (ht : now ≠ timeMax) (hnow : now < 2 ^ 64)
    (hok : n = 0 ∨ B % R ≤ 1 ∧ B ≤ R * ((if n = 1 then 2 else 1) * (E + 1))) (address : UInt32) (length : ℕ) :
    ∃ last', Good hash E n B R now last' a t1
      (spentAfter a address t1 now length spent (Policer.police hash s now length address).2)
      (Policer.police hash s now length address).1 := by
  cases hf : s.addresses.find hash address with
  | some i =>
    obtain ⟨⟨ts, hts⟩, -⟩ := h.refines.inv.find_iff.mp hf
    have hi := h.refines.represents.lt i ts hts
    exact ⟨_, h.police_found ht hnow (hok.resolve_left (by omega)).1 hf⟩
  | none => exact h.police_absent ht (fun hn => (hok.resolve_left hn).2) hf

end Good

/-! ### Runs within the bound -/

theorem police_wanDevice (s : State) (time length : ℕ) (address : UInt32) :
    (police hash s time length address).1.wanDevice = s.wanDevice ∧
      (police hash s time length address).1.rate = s.rate ∧
      (police hash s time length address).1.burst = s.burst := by
  unfold police
  split
  · simp only
    split_ifs <;> exact ⟨rfl, rfl, rfl⟩
  · split_ifs
    · exact ⟨rfl, rfl, rfl⟩
    · split <;> exact ⟨rfl, rfl, rfl⟩

/-- A packet that is policed. -/
theorem nfHandle_policed {s : State} {p : NetPacket} {address : UInt32} (h : policedAddr s p = some address) :
    (nfHandle hash s p).1 = (police hash s p.time p.length address).1 ∧
      (nfHandle hash s p).2.isSome = (police hash s p.time p.length address).2 := by
  unfold policedAddr at h
  unfold nfHandle
  cases hh : ipv4Header p with
  | none => rw [hh] at h; cases h
  | some ipv4 =>
    rw [hh] at h
    simp only at h ⊢
    split_ifs at h ⊢ with hd
    cases h
    rcases police hash s p.time p.length (dstAddr p.data ipv4) with ⟨t, _ | _⟩ <;> exact ⟨rfl, rfl⟩

/-- A packet that is not leaves the state. -/
theorem nfHandle_unpoliced {s : State} {p : NetPacket} (h : policedAddr s p = none) : (nfHandle hash s p).1 = s := by
  unfold policedAddr at h
  unfold nfHandle
  cases hh : ipv4Header p with
  | none => rfl
  | some ipv4 =>
    rw [hh] at h
    simp only at h ⊢
    split_ifs at h ⊢ with hd
    rfl

/-- Packets after the window add nothing. -/
theorem forwarded_after {address : UInt32} {t1 t2 : ℕ} : ∀ {ps : List NetPacket} {s : State},
    (∀ p ∈ ps, t2 < p.time) → forwarded hash address t1 t2 s ps = 0
  | [], _, _ => rfl
  | p :: ps, s, h => by
    have hp := h p List.mem_cons_self
    rw [forwarded, if_neg (by rintro ⟨-, -, hc, -⟩; omega),
      forwarded_after fun q hq => h q (List.mem_cons_of_mem p hq)]

variable {E n B R : ℕ} {a : UInt32} {t1 t2 : ℕ}

theorem Good.spent_le {s : State} {now spent : ℕ} {last : UInt32 → Option ℕ}
    (h : Good hash E n B R now last a t1 spent s) (hnow : now ≤ t2) : spent ≤ B + R * (t2 - t1) := by
  by_cases hlast : ∃ t, last a = some t ∧ t1 ≤ t
  · obtain ⟨t, ht, h1⟩ := hlast
    have hle := h.le_now a t ht
    have hmul : R * (t - t1) ≤ R * (t2 - t1) := Nat.mul_le_mul_left R (by omega)
    have := h.total t ht h1
    omega
  · rw [h.early fun t ht => by by_contra hc; exact hlast ⟨t, ht, by omega⟩]
    exact Nat.zero_le _

theorem forwarded_le (hok : n = 0 ∨ B % R ≤ 1 ∧ B ≤ R * ((if n = 1 then 2 else 1) * (E + 1))) :
    ∀ {ps : List NetPacket} {s : State} {now spent : ℕ} {last : UInt32 → Option ℕ},
      Good hash E n B R now last a t1 spent s → now ≤ t2 → Timed now ps →
      spent + forwarded hash a t1 t2 s ps ≤ B + R * (t2 - t1)
  | [], s, now, spent, last, h, hnow, _ => h.spent_le hnow
  | p :: ps, s, now, spent, last, h, hnow, hps => by
    obtain ⟨hb, hm⟩ := hps
    have hm' := List.pairwise_cons.mp hm
    obtain ⟨h1, h2⟩ := hb p List.mem_cons_self
    have hrest : Timed p.time ps :=
      ⟨fun q hq => ⟨hm'.1 q hq, (hb q (List.mem_cons_of_mem p hq)).2⟩, hm'.2⟩
    rcases Nat.lt_or_ge t2 p.time with hafter | hin
    · -- the window is over
      rw [forwarded_after fun q hq => ?_]
      · exact h.spent_le hnow
      · rcases List.mem_cons.mp hq with rfl | hq
        · exact hafter
        · exact lt_of_lt_of_le hafter (hm'.1 q hq)
    · have hl := h.later h1
      rw [forwarded]
      cases hpol : policedAddr s p with
      | none =>
        rw [if_neg (by rintro ⟨hc, -⟩; cases hc), nfHandle_unpoliced hpol, Nat.zero_add]
        exact forwarded_le hok hl hin hrest
      | some address =>
        obtain ⟨hs, ho⟩ := @nfHandle_policed hash s p address hpol
        have ht : p.time < 2 ^ 64 := by unfold timeMax at h2; omega
        obtain ⟨last', hg⟩ := hl.police (by omega) ht hok address p.length
        have ih := forwarded_le hok hg hin hrest
        rw [hs, ho]
        simp only [Option.some.injEq, hin, true_and, Good.spentAfter] at ih ⊢
        rwa [← Nat.add_assoc]

theorem nfInit_good (hash : UInt32 → UInt32) (items : ConfigItems) (devicesCount : UInt16) {s : State}
    (h : nfInit items devicesCount = some s) :
    ∃ maxFlows, osConfigGetSize items "max flows" = some maxFlows ∧ 0 < s.rate ∧ 0 < s.burst ∧
      s.burst < 2 ^ 64 ∧ ∀ a t1, Good hash (expiration s.rate s.burst) maxFlows s.burst s.rate 0
        (fun _ => none) a t1 0 s := by
  unfold nfInit at h
  split_ifs at h with hd
  simp only [Option.pure_def, Option.bind_eq_bind, Option.bind_eq_some_iff] at h
  obtain ⟨w, -, r, -, b, -, m, hm, h⟩ := h
  split_ifs at h with hrb
  simp only [Option.bind_eq_some_iff, Option.some.injEq] at h
  obtain ⟨t, ht, rfl⟩ := h
  obtain ⟨t', ht', href⟩ := KeyedPool.alloc_refines hash 4 (expiration r.toNat b.toNat) (osConfigGetSize_le hm)
  rw [ht', Option.some.injEq] at ht
  subst ht
  obtain ⟨hr0, hb0⟩ := not_or.mp hrb
  have hno : ∀ i r, t'.pool.items i ≠ some r := fun i r hi => by
    have := href.represents.stored i r hi
    cases this
  refine ⟨m, hm, ?_, ?_, b.toNat_lt, fun a t1 => ?_⟩
  · exact Nat.pos_of_ne_zero fun hc => hr0 (UInt64.toNat_inj.mp hc)
  · exact Nat.pos_of_ne_zero fun hc => hb0 (UInt64.toNat_inj.mp hc)
  · exact { rate_eq := rfl, burst_eq := rfl, refines := href, buckets_length := by simp,
            le_now := fun _ _ hc => (by cases hc), bucket_time := fun i r hi => absurd hi (hno i r),
            bucket_size := fun i r hi => absurd hi (hno i r), gone := fun _ _ _ hc => (by cases hc),
            early := fun _ => rfl, total := fun _ hc => (by cases hc),
            within := fun i r hi => absurd hi (hno i r) }

/-! ### Runs beyond the bound -/

/-- A frame of an IPv4 packet to an address. -/
def ipv4Frame (address : UInt32) : ℕ → UInt8 := store32 (store16 (fun _ => 0) 12 0x0008) 30 address

/-- A packet from the WAN. -/
def wanPacket (device : UInt16) (address : UInt32) (length time : ℕ) : NetPacket :=
  ⟨ipv4Frame address, length, time, device⟩

theorem policedAddr_wanPacket {s : State} {device : UInt16} (hs : s.wanDevice = device) (address : UInt32)
    (length time : ℕ) : policedAddr s (wanPacket device address length time) = some address := by
  have hh : ipv4Header (wanPacket device address length time) = some 14 := rfl
  have ha : dstAddr (wanPacket device address length time).data 14 = address := load32_store32 _ 30 address
  have hd : (wanPacket device address length time).device = s.wanDevice := hs.symm
  unfold policedAddr
  rw [hh]
  simp only [ha, hd, ↓reduceIte]

/-- A packet to an address without a bucket, when there is room for it. -/
theorem police_create {s : State} {E n time length : ℕ} {address : UInt32} (hinv : s.addresses.Inv hash n)
    (hx : s.addresses.pool.expirationTime = E) (hlen : s.buckets.length = n) (ht : time ≠ timeMax)
    (hl : length ≤ s.burst) (hf : s.addresses.find hash address = none)
    (hroom : ∃ i, i < n ∧ ∀ ts, s.addresses.pool.items i = some ts → ¬ poolYoung time E ts) :
    ∃ i, (police hash s time length address).2 = true ∧ i < n ∧
      (police hash s time length address).1.addresses.Inv hash n ∧
      (police hash s time length address).1.addresses.pool.expirationTime = E ∧
      (police hash s time length address).1.buckets.length = n ∧
      (police hash s time length address).1.addresses.pool.lastBorrowedIndex = i ∧
      (police hash s time length address).1.addresses.pool.items =
        Function.update s.addresses.pool.items i (some time) ∧
      (police hash s time length address).1.addresses.key = Function.update s.addresses.key i address ∧
      (police hash s time length address).1.bucket i = ⟨s.burst - length, time⟩ ∧
      (s.addresses.insert hash time address).1 = some i := by
  rcases hinv.insert_cases ht hf with ⟨i, t, he, hi, -, hinv', hitems, hkey, hx'⟩ | ⟨-, hall⟩
  · have hlast : t.pool.lastBorrowedIndex = i := by
      have := @KeyedPool.Inv.insert_last _ _ _ hash s.addresses time i address (by rw [he])
      rwa [he] at this
    have hpol : police hash s time length address =
        ({ s with addresses := t, buckets := s.buckets.set i ⟨s.burst - length, time⟩ }, true) := by
      unfold police
      simp only [hf, he, Nat.not_lt.mpr hl, ↓reduceIte]
    refine ⟨i, ?_⟩
    rw [hpol]
    refine ⟨rfl, hi, hinv', hx'.trans hx, by rw [List.length_set, hlen], hlast, hitems, hkey, ?_, by rw [he]⟩
    simp [State.bucket, List.getD_eq_getElem?_getD, List.getElem?_set_self (hlen ▸ hi : i < s.buckets.length)]
  · obtain ⟨i, hi, hno⟩ := hroom
    obtain ⟨ts, hts, hy⟩ := hall i hi
    exact absurd (hx ▸ hy) (hno ts hts)

theorem forwarded_wanPacket {s : State} {device : UInt16} (hs : s.wanDevice = device) {address b : UInt32}
    {length time t2 : ℕ} (ht : time ≤ t2) (ps : List NetPacket) :
    forwarded hash b 0 t2 s (wanPacket device address length time :: ps) =
      (if address = b ∧ (police hash s time length address).2 = true then length else 0) +
        forwarded hash b 0 t2 (police hash s time length address).1 ps := by
  obtain ⟨h1, h2⟩ := @nfHandle_policed hash s _ _ (policedAddr_wanPacket hs address length time)
  rw [forwarded, policedAddr_wanPacket hs, h1, h2]
  simp only [wanPacket, Option.some.injEq, Nat.zero_le, ht, true_and]

section Violations

variable {E n : ℕ} {s : State}

/-- What the two runs start from: an empty table with room. -/
structure Empty (hash : UInt32 → UInt32) (E n : ℕ) (s : State) : Prop where
  inv : s.addresses.Inv hash n
  expiration : s.addresses.pool.expirationTime = E
  buckets_length : s.buckets.length = n
  items : s.addresses.pool.items = fun _ => none
  pos : 0 < n

/-- After a whole burst to address 0 at time 0. -/
theorem police_first (h : Empty hash E n s) :
    ∃ i s1, police hash s 0 s.burst 0 = (s1, true) ∧ i < n ∧ s1.addresses.Inv hash n ∧
      s1.addresses.pool.expirationTime = E ∧ s1.buckets.length = n ∧ s1.addresses.pool.lastBorrowedIndex = i ∧
      s1.addresses.pool.items = Function.update (fun _ => none) i (some 0) ∧ s1.addresses.key i = 0 ∧
      s1.bucket i = ⟨0, 0⟩ := by
  have hf : s.addresses.find hash 0 = none := h.inv.find_none.mpr fun i ts hi => by rw [h.items] at hi; cases hi
  obtain ⟨i, h1, hi, h2, h3, h4, h5, h6, h7, h8, -⟩ := police_create h.inv h.expiration h.buckets_length
    (by decide : 0 ≠ timeMax) (le_refl s.burst) hf ⟨0, h.pos, fun ts hts => by rw [h.items] at hts; cases hts⟩
  refine ⟨i, (police hash s 0 s.burst 0).1, by rw [← h1], hi, h2, h3, h4, h5, by rw [h6, h.items], ?_, ?_⟩
  · rw [h7, Function.update_self]
  · rw [h8, Nat.sub_self]

/-- A burst, and all but one token of another after `burst / rate`. -/
theorem rest_violation (h : Empty hash E n s) (hR : 0 < s.rate) (hB : s.burst < 2 ^ 64)
    (hr : 2 ≤ s.burst % s.rate) : ¬ Bounded hash s := by
  intro hbound
  obtain ⟨i, s1, hpol, hi, hinv, -, -, -, hitems, hkey, hbucket⟩ := police_first h
  obtain ⟨d, hd⟩ : ∃ d, d = s.burst / s.rate := ⟨_, rfl⟩
  have hmod := Nat.div_add_mod s.burst s.rate
  have hlt := Nat.mod_lt s.burst hR
  have hdB : d < s.burst := hd ▸ Nat.div_lt_self (by omega) (by omega)
  rw [← hd] at hmod
  have hw := @police_wanDevice hash s 0 s.burst 0
  rw [hpol] at hw
  have hf : s1.addresses.find hash 0 = some i :=
    hinv.find_iff.mpr ⟨⟨0, by rw [hitems, Function.update_self]⟩, hkey⟩
  have hpol2 : (police hash s1 d (s.burst - 1) 0).2 = true := by
    have hrefill : refill s1.rate s1.burst 0 (sub64 d 0) = s.burst := by
      rw [sub64_of_le (Nat.zero_le d) (by omega), Nat.sub_zero, hw.2.1, hw.2.2, refill, ← hd,
        if_neg (Nat.lt_irrefl d)]
    unfold police
    simp only [hf, hbucket, hrefill, show s.burst - 1 < s.burst by omega, ↓reduceIte]
  have hle := hbound [wanPacket s.wanDevice 0 s.burst 0, wanPacket s.wanDevice 0 (s.burst - 1) d] ⟨?_, ?_⟩ 0 0 d
    (Nat.zero_le d)
  · rw [forwarded_wanPacket rfl (Nat.zero_le d), hpol, forwarded_wanPacket hw.1 (le_refl d), hpol2] at hle
    simp only [forwarded, and_self, ↓reduceIte, Nat.sub_zero] at hle
    omega
  · intro p hp
    simp only [List.mem_cons, List.not_mem_nil, or_false] at hp
    rcases hp with rfl | rfl <;> simp only [wanPacket, timeMax] <;> omega
  · simp [wanPacket]

/-- A burst, a packet to another address that evicts the first one as soon as
it has expired, and a burst again as soon as there is room. -/
theorem eviction_violation (h : Empty hash E n s) (hR : 0 < s.rate) (hB : s.burst < 2 ^ 64)
    (hgain : s.rate * ((if n = 1 then 2 else 1) * (E + 1)) < s.burst) : ¬ Bounded hash s := by
  intro hbound
  obtain ⟨T, hT⟩ : ∃ T, T = (if n = 1 then 2 else 1) * (E + 1) := ⟨_, rfl⟩
  rw [← hT] at hgain
  have hTB : T < s.burst := lt_of_le_of_lt (Nat.le_mul_of_pos_left T hR) hgain
  have hET : E + 1 ≤ T := by rw [hT]; split_ifs <;> omega
  obtain ⟨i, s1, hpol, hi, hinv, hx, hlen, hlast, hitems, hkey, -⟩ := police_first h
  have hw := @police_wanDevice hash s 0 s.burst 0
  rw [hpol] at hw
  -- the packet to address 1 takes the index of address 0
  have hf1 : s1.addresses.find hash 1 = none := hinv.find_none.mpr fun j ts hj hk => by
    rw [hitems] at hj
    by_cases hji : j = i
    · rw [hji, hkey] at hk; exact absurd hk (by decide)
    · rw [Function.update_of_ne hji] at hj; cases hj
  have hexp : ∀ ts, s1.addresses.pool.items i = some ts → ¬ poolYoung (E + 1) E ts := fun ts hts => by
    rw [hitems, Function.update_self] at hts
    cases hts
    unfold poolYoung; omega
  obtain ⟨j, -, -, hinv2, hx2, hlen2, -, hitems2, hkey2, -, hj⟩ := police_create hinv hx hlen
    (by unfold timeMax; omega : E + 1 ≠ timeMax) (Nat.zero_le s1.burst) hf1 ⟨i, hi, hexp⟩
  have hji : j = i := by
    have := @KeyedPool.Inv.insert_at_last _ _ _ hash n s1.addresses hinv (E + 1) 1 (hlast ▸ hi)
      (by rw [hlast, hx]; exact hexp)
    rw [hj, hlast] at this
    exact Option.some.inj this
  subst hji
  have hw2 := @police_wanDevice hash s1 (E + 1) 0 1
  set s2 := (police hash s1 (E + 1) 0 1).1
  rw [hitems, Function.update_idem] at hitems2
  have hf2 : s2.addresses.find hash 0 = none := hinv2.find_none.mpr fun l ts hl hk => by
    rw [hitems2] at hl
    by_cases hlj : l = j
    · rw [hlj, hkey2, Function.update_self] at hk; exact absurd hk (by decide)
    · rw [Function.update_of_ne hlj] at hl; cases hl
  have hroom : ∃ l, l < n ∧ ∀ ts, s2.addresses.pool.items l = some ts → ¬ poolYoung T E ts := by
    by_cases hn : n = 1
    · refine ⟨j, hi, fun ts hts => ?_⟩
      rw [hitems2, Function.update_self] at hts
      cases hts
      rw [if_pos hn] at hT
      unfold poolYoung; omega
    · obtain ⟨l, hl, hlj⟩ : ∃ l, l < n ∧ l ≠ j := by
        by_cases h0 : j = 0
        · exact ⟨1, by omega, by omega⟩
        · exact ⟨0, by omega, fun hc => h0 hc.symm⟩
      refine ⟨l, hl, fun ts hts => ?_⟩
      rw [hitems2, Function.update_of_ne hlj] at hts
      cases hts
  have hburst : s2.burst = s.burst := hw2.2.2.trans hw.2.2
  obtain ⟨l, hpol3, -⟩ := police_create hinv2 hx2 hlen2 (by unfold timeMax; omega : T ≠ timeMax)
    (le_of_eq hburst.symm) hf2 hroom
  have hle := hbound [wanPacket s.wanDevice 0 s.burst 0, wanPacket s.wanDevice 1 0 (E + 1),
    wanPacket s.wanDevice 0 s.burst T] ⟨?_, ?_⟩
    0 0 T (Nat.zero_le T)
  · rw [forwarded_wanPacket rfl (Nat.zero_le T), hpol, forwarded_wanPacket hw.1 hET,
      forwarded_wanPacket (hw2.1.trans hw.1) (le_refl T), hpol3] at hle
    simp only [forwarded, and_self, ↓reduceIte, Nat.sub_zero, show (1 : UInt32) ≠ 0 by decide, false_and] at hle
    omega
  · intro p hp
    simp only [List.mem_cons, List.not_mem_nil, or_false] at hp
    rcases hp with rfl | rfl | rfl <;> simp only [wanPacket, timeMax] <;> omega
  · simp only [wanPacket, List.pairwise_cons, List.mem_cons, List.not_mem_nil, or_false, forall_eq, Nat.zero_le,
      and_self, hET, IsEmpty.forall_iff, implies_true, List.Pairwise.nil]

end Violations

/-- **When the policer keeps the bound of the token bucket.** For every
configuration that `nf_init` accepts, and any hash: on all runs, for all
addresses and windows, exactly when `BoundOk`. -/
theorem policer_bound_iff (hash : UInt32 → UInt32) (items : ConfigItems) (devicesCount : UInt16) {s : State}
    {maxFlows : ℕ} (hinit : nfInit items devicesCount = some s)
    (hM : osConfigGetSize items "max flows" = some maxFlows) :
    Bounded hash s ↔ BoundOk s.rate s.burst maxFlows := by
  obtain ⟨m, hm, hR, hB0, hB, hgood⟩ := nfInit_good hash items devicesCount hinit
  rw [hM, Option.some.injEq] at hm
  subst hm
  have h0 := hgood 0 0
  have hempty : ∀ i ts, s.addresses.pool.items i ≠ some ts := fun i ts hi => by
    have := h0.refines.represents.stored i ts hi
    cases this
  constructor
  · intro hbound
    rcases Nat.eq_zero_or_pos maxFlows with hz | hpos
    · exact .inl hz
    · have he : Empty hash (expiration s.rate s.burst) maxFlows s :=
        { inv := h0.refines.inv, expiration := h0.refines.expiration, buckets_length := h0.buckets_length,
          items := funext fun i => Option.eq_none_iff_forall_ne_some.mpr (hempty i), pos := hpos }
      refine .inr ⟨?_, ?_⟩
      · by_contra hc
        exact rest_violation he hR hB (by omega) hbound
      · by_contra hc
        exact eviction_violation he hR hB (by omega) hbound
  · intro hok ps hps address t1 t2 _
    have := forwarded_le hok (hgood address t1) (Nat.zero_le t2) hps
    rwa [Nat.zero_add] at this

/-- A configuration of the policer. -/
def demoItems (rate burst maxFlows : UInt64) : ConfigItems :=
  [("wan device", 0), ("rate", rate), ("burst", burst), ("max flows", maxFlows)]

/-- The theorem at a burst that the rate divides. -/
theorem policer_bound_iff_divides :
    ∃ s, nfInit (demoItems 100 1000 4) 2 = some s ∧ Bounded (fun _ => 0) s :=
  ⟨_, rfl, (policer_bound_iff (fun _ => 0) (demoItems 100 1000 4) 2 rfl rfl).mpr (by decide)⟩

/-- A rate of 300 and a burst of 200: packets of 200 and 199 bytes to one
address, both at time 0. -/
theorem policer_exceeds :
    ∃ s, nfInit (demoItems 300 200 4) 2 = some s ∧
      forwarded (fun _ => 0) 0 0 0 s [wanPacket 0 0 200 0, wanPacket 0 0 199 0] = 399 ∧
      s.burst + s.rate * (0 - 0) = 200 ∧ ¬ Bounded (fun _ => 0) s := by
  refine ⟨_, rfl, by decide, rfl, fun h => ?_⟩
  have hle := h [wanPacket 0 0 200 0, wanPacket 0 0 199 0] ⟨?_, ?_⟩ 0 0 0 (le_refl 0)
  · revert hle; decide
  · simp [wanPacket, timeMax]
  · simp [wanPacket]

end Policer
end Klint
