/-
# The DHCP server

`nf/dhcp_ipv4`: the address pool that `nf_init` fills, and the two functions
that answer a client. The options of a message are read and written at the
offsets of the packed structures of `dhcp.h`.

`nf_init` takes 4 from the number of addresses of the subnet as a `size_t`, so
that for the three narrowest masks the bound on the number of connections is
no bound: `dhcp_addresses` says for which configurations the entries of
`ip_addresses` are host addresses.
-/
import Klint.Net.Tinynf
import Klint.Os.Config
import Klint.Structs.KeyedPool

namespace Klint
namespace Dhcp

/-! ### Messages -/

/-- The fields of `struct net_dhcp_header` that the server uses; `options` is what
its `options` points to. -/
structure Header where
  op : UInt8
  yaddr : UInt32
  options : ℕ → UInt8

def BOOTREPLY : UInt8 := 2
def DHCPOFFER : UInt8 := 2
def DHCPACK : UInt8 := 5
def DHCPNAK : UInt8 := 6

/-- Fields of `struct net_dhcp_discover_option` and `struct net_dhcp_request_option`. -/
def clientIdentifierValue (options : ℕ → UInt8) : EtherAddr := loadEtherAddr options 6
def requestedIpAddressValue (options : ℕ → UInt8) : UInt32 := load32 options 14

/-- Fields of `struct net_dhcp_response_option`. -/
def messageTypeValue (options : ℕ → UInt8) : UInt8 := options 2
def leaseTimeValue (options : ℕ → UInt8) : UInt32 := load32 options 17

/-- The codes and sizes that `set_dhcp_offer_option` and `set_dhcp_ack_option` write. -/
def setResponseOption (type : UInt8) (options : ℕ → UInt8) : ℕ → UInt8 := fun p =>
  if p = 2 then type else if p = 3 then 54 else if p = 4 then 4 else if p = 27 then 6 else if p = 28 then 4
  else if p = 21 then 3 else if p = 22 then 4 else if p = 15 then 51 else if p = 16 then 4
  else if p = 9 then 1 else if p = 10 then 4 else if p = 33 then 255 else options p

def setDhcpOfferOption (options : ℕ → UInt8) : ℕ → UInt8 := setResponseOption DHCPOFFER options
def setDhcpAckOption (options : ℕ → UInt8) : ℕ → UInt8 := setResponseOption DHCPACK options

def setDhcpNackOption (options : ℕ → UInt8) : ℕ → UInt8 := fun p =>
  if p = 2 then DHCPNAK else if p = 3 then 255 else options p

/-! ### The configuration -/

/-- What `nf_init` reads. -/
structure Config where
  maxConnections : ℕ
  serverIp : UInt32
  subnetMask : UInt32
  gatewayIp : UInt32
  dnsServerIp : UInt32
  expirationTime : UInt32
  serverEtherAddr : ℕ

def readConfig (items : ConfigItems) : Option Config := do
  let maxConnections ← osConfigGetSize items "max number dhcp connections"
  let serverIp ← osConfigGetU32 items "DHCP ipv4 address"
  let subnetMask ← osConfigGetU32 items "DHCP ipv4 mask"
  let gatewayIp ← osConfigGetU32 items "gateway ipv4 address"
  let dnsServerIp ← osConfigGetU32 items "domain name server ip"
  let expirationTime ← osConfigGetU32 items "expiration time"
  let serverEtherAddr ← osConfigGetSize items "server ether address"
  return { maxConnections, serverIp, subnetMask, gatewayIp, dnsServerIp, expirationTime, serverEtherAddr }

/-- `MAX_MASK`. -/
def maxMask : UInt32 := 0xFFFFFFFF

namespace Config

variable (c : Config)

/-- `num_ipv4_addr_avail`. -/
def numIpv4AddrAvail : ℕ := (maxMask - c.subnetMask).toNat

/-- `capacity`, "ensuring that it is not bigger than that of the number of IP
addresses available". -/
def capacity : ℕ :=
  if sub64 c.numIpv4AddrAvail 4 < c.maxConnections then sub64 c.numIpv4AddrAvail 4 else c.maxConnections

/-- `ip_subnet`. -/
def ipSubnet : UInt32 := c.serverIp &&& c.subnetMask

/-- The address that the loop stops at. -/
def bound : ℕ := c.ipSubnet.toNat + c.numIpv4AddrAvail

/-- The addresses that are not handed out. -/
def reserved (ip : UInt32) : Bool := ip == c.serverIp || ip == c.gatewayIp || ip == c.dnsServerIp

end Config

/-! ### The address pool -/

/-- `ip_addresses[index] = ip`; `none` for a write past the array. -/
def setAddress (ipAddresses : List UInt32) (index : ℕ) (ip : UInt32) : Option (List UInt32) :=
  if index < ipAddresses.length then some (ipAddresses.set index ip) else none

/-- The loop that populates the array, in front of its test, with at most `fuel`
iterations to go. -/
def populate (c : Config) : ℕ → UInt32 → ℕ → List UInt32 → Option (List UInt32)
  | 0, _, _, ipAddresses => some ipAddresses
  | fuel + 1, nextAvailIp, index, ipAddresses =>
    if nextAvailIp.toNat < c.bound then
      if c.reserved nextAvailIp then
        if index = c.capacity then some ipAddresses else populate c fuel (nextAvailIp + 1) index ipAddresses
      else
        match setAddress ipAddresses index nextAvailIp with
        | none => none
        | some ipAddresses =>
          if index + 1 = c.capacity then some ipAddresses
          else populate c fuel (nextAvailIp + 1) (index + 1) ipAddresses
    else some ipAddresses

/-- The static variables; `clients` is `eth_addresses`, `eth_index_map` and
`index_pool`. -/
structure State where
  config : Config
  ipAddresses : List UInt32
  clients : KeyedPool EtherAddr

/-- What `nf_init` ends with. -/
inductive InitResult where
  /-- It returns false. -/
  | failed
  /-- It writes past `ip_addresses`. -/
  | illegalWrite
  /-- It returns true. -/
  | ready (s : State)

/-- `nf_init` after it has read the configuration. -/
def init (c : Config) : InitResult :=
  if c.capacity = 0 then .failed
  else
    match keyedPoolAlloc EtherAddr etherAddrSize c.capacity c.expirationTime.toNat with
    | none => .failed
    | some clients =>
      match populate c (c.bound - (c.ipSubnet + 1).toNat) (c.ipSubnet + 1) 0 (List.replicate c.capacity 0) with
      | none => .illegalWrite
      | some ipAddresses => .ready { config := c, ipAddresses := ipAddresses, clients := clients }

def nfInit (items : ConfigItems) : InitResult :=
  match readConfig items with
  | none => .failed
  | some c => init c

def State.ip (s : State) (index : ℕ) : UInt32 := s.ipAddresses.getD index 0

/-! ### What the loop leaves -/

namespace Config

variable (c : Config)

/-- The addresses that the loop takes from `next` on, if nothing stops it. -/
def remaining (next : UInt32) : List UInt32 :=
  ((List.range' next.toNat (c.bound - next.toNat)).map UInt32.ofNat).filter fun ip => !c.reserved ip

variable {c}

theorem numIpv4AddrAvail_eq : c.numIpv4AddrAvail = 2 ^ 32 - 1 - c.subnetMask.toNat := by
  have hlt := c.subnetMask.toNat_lt
  have hmax : maxMask.toNat = 2 ^ 32 - 1 := by decide
  have hle : c.subnetMask ≤ maxMask := by
    rw [UInt32.le_iff_toNat_le, hmax]
    omega
  rw [numIpv4AddrAvail, UInt32.toNat_sub_of_le _ _ hle, hmax]

theorem ipSubnet_le : c.ipSubnet.toNat ≤ c.subnetMask.toNat := by
  rw [ipSubnet, UInt32.toNat_and]
  exact Nat.and_le_right

theorem bound_lt : c.bound < 2 ^ 32 := by
  have hle := @ipSubnet_le c
  have hlt := c.subnetMask.toNat_lt
  rw [bound, numIpv4AddrAvail_eq]
  omega

theorem remaining_of_ge {next : UInt32} (h : c.bound ≤ next.toNat) : c.remaining next = [] := by
  rw [remaining, Nat.sub_eq_zero_of_le h, List.range'_zero, List.map_nil, List.filter_nil]

theorem remaining_of_lt {next : UInt32} (h : next.toNat < c.bound) :
    c.remaining next = if c.reserved next then c.remaining (next + 1) else next :: c.remaining (next + 1) := by
  have hb := @bound_lt c
  have hnext : (next + 1).toNat = next.toNat + 1 := by
    rw [UInt32.toNat_add, UInt32.toNat_one]
    omega
  have hcount : c.bound - next.toNat = c.bound - (next + 1).toNat + 1 := by omega
  rw [remaining, remaining, hcount, List.range'_succ, List.map_cons, UInt32.ofNat_toNat, List.filter_cons, hnext]
  cases c.reserved next
  · simp only [Bool.not_false, if_true, Bool.false_eq_true, if_false]
  · simp only [Bool.not_true, Bool.false_eq_true, if_false, if_true]

end Config

theorem setAddress_of_lt {l : List UInt32} {index : ℕ} (h : index < l.length) (ip : UInt32) :
    setAddress l index ip = some (l.set index ip) := if_pos h

theorem getD_set {l : List UInt32} {index i : ℕ} (h : index < l.length) (ip : UInt32) :
    (l.set index ip).getD i 0 = if i = index then ip else l.getD i 0 := by
  simp only [List.getD_eq_getElem?_getD]
  by_cases hi : i = index
  · subst hi
    rw [List.getElem?_set_self h, if_pos rfl, Option.getD_some]
  · rw [List.getElem?_set_ne (Ne.symm hi), if_neg hi]

/-- What the loop promises of the array: what is before `index` stays, the
remaining addresses follow, and the rest stays. -/
structure Populated (c : Config) (next : UInt32) (index : ℕ) (l l' : List UInt32) : Prop where
  length : l'.length = l.length
  before : ∀ i < index, l'.getD i 0 = l.getD i 0
  after : ∀ i, index ≤ i → i < c.capacity → l'.getD i 0 = (c.remaining next).getD (i - index) (l.getD i 0)

theorem Populated.skip {c : Config} {next : UInt32} {index : ℕ} {l l' : List UInt32} (hlt : next.toNat < c.bound)
    (hr : c.reserved next = true) (h : Populated c (next + 1) index l l') : Populated c next index l l' where
  length := h.length
  before := h.before
  after i hi hc := by rw [Config.remaining_of_lt hlt, if_pos hr, h.after i hi hc]

theorem Populated.take {c : Config} {next : UInt32} {index : ℕ} {l l' : List UInt32} (hlt : next.toNat < c.bound)
    (hr : c.reserved next = false) (hi : index < l.length)
    (h : Populated c (next + 1) (index + 1) (l.set index next) l') : Populated c next index l l' where
  length := by rw [h.length, List.length_set]
  before i hlt := by rw [h.before i (by omega), getD_set hi, if_neg (by omega)]
  after i hle hc := by
    rw [Config.remaining_of_lt hlt, hr, if_neg Bool.false_ne_true]
    obtain rfl | hne := Nat.eq_or_lt_of_le hle
    · rw [h.before index (by omega), getD_set hi, if_pos rfl, Nat.sub_self, List.getD_cons_zero]
    · rw [h.after i hne hc, getD_set hi, if_neg (by omega), show i - index = i - (index + 1) + 1 by omega,
        List.getD_cons_succ]

/-- The loop never writes past the array. -/
theorem populate_spec {c : Config} : ∀ {fuel : ℕ} {next : UInt32} {index : ℕ} {l : List UInt32},
    c.bound - next.toNat ≤ fuel → l.length = c.capacity → index < c.capacity →
    ∃ l', populate c fuel next index l = some l' ∧ Populated c next index l l'
  | 0, next, index, l, hf, hl, hi => by
    refine ⟨l, rfl, rfl, fun _ _ => rfl, fun i hle hc => ?_⟩
    rw [Config.remaining_of_ge (by omega), List.getD_nil]
  | fuel + 1, next, index, l, hf, hl, hi => by
    have hb := @Config.bound_lt c
    rw [populate]
    by_cases hlt : next.toNat < c.bound
    · have hnext : (next + 1).toNat = next.toNat + 1 := by
        rw [UInt32.toNat_add, UInt32.toNat_one]
        omega
      rw [if_pos hlt]
      cases hr : c.reserved next with
      | true =>
        rw [if_pos rfl, if_neg (by omega)]
        obtain ⟨l', hl', hp⟩ := @populate_spec c fuel (next + 1) index l (by omega) hl hi
        exact ⟨l', hl', hp.skip hlt hr⟩
      | false =>
        rw [if_neg Bool.false_ne_true, setAddress_of_lt (by omega)]
        by_cases hlast : index + 1 = c.capacity
        · refine ⟨l.set index next, if_pos hlast, List.length_set, fun i hi' => ?_, fun i hle hc => ?_⟩
          · rw [getD_set (by omega), if_neg (by omega)]
          · obtain rfl : i = index := by omega
            rw [getD_set (by omega), if_pos rfl, Config.remaining_of_lt hlt, hr, if_neg Bool.false_ne_true,
              Nat.sub_self, List.getD_cons_zero]
        · obtain ⟨l', hl', hp⟩ := @populate_spec c fuel (next + 1) (index + 1) (l.set index next) (by omega)
            (by rw [List.length_set, hl]) (by omega)
          exact ⟨l', (if_neg hlast).trans hl', hp.take hlt hr (by omega)⟩
    · rw [if_neg hlt]
      refine ⟨l, rfl, rfl, fun _ _ => rfl, fun i hle hc => ?_⟩
      rw [Config.remaining_of_ge (by omega), List.getD_nil]

/-- A server that is ready has the addresses that the loop takes, in order, and
zeros if there are too few. -/
theorem init_cases (c : Config) :
    init c = .failed ∨ 0 < c.capacity ∧ ∃ clients ipAddresses,
      keyedPoolAlloc EtherAddr etherAddrSize c.capacity c.expirationTime.toNat = some clients ∧
      init c = .ready { config := c, ipAddresses := ipAddresses, clients := clients } ∧
      ∀ i < c.capacity, ipAddresses.getD i 0 = (c.remaining (c.ipSubnet + 1)).getD i 0 := by
  by_cases h0 : c.capacity = 0
  · exact Or.inl (if_pos h0)
  · cases hk : keyedPoolAlloc EtherAddr etherAddrSize c.capacity c.expirationTime.toNat with
    | none => exact Or.inl (by rw [init, if_neg h0, hk])
    | some clients =>
      obtain ⟨l, hl, hp⟩ := @populate_spec c _ (c.ipSubnet + 1) 0 (List.replicate c.capacity 0) le_rfl
        List.length_replicate (Nat.pos_of_ne_zero h0)
      refine Or.inr ⟨Nat.pos_of_ne_zero h0, clients, l, rfl, by rw [init, if_neg h0, hk, hl], fun i hi => ?_⟩
      rw [hp.after i (Nat.zero_le i) hi, Nat.sub_zero, List.getD_replicate]
      exact hi

theorem nfInit_ready {items : ConfigItems} {s : State} (h : nfInit items = .ready s) :
    readConfig items = some s.config ∧ 0 < s.config.capacity ∧
      keyedPoolAlloc EtherAddr etherAddrSize s.config.capacity s.config.expirationTime.toNat = some s.clients ∧
      ∀ i < s.config.capacity, s.ip i = (s.config.remaining (s.config.ipSubnet + 1)).getD i 0 := by
  unfold nfInit at h
  cases hc : readConfig items with
  | none => rw [hc] at h; cases h
  | some c =>
    rw [hc] at h
    obtain hf | ⟨hpos, clients, l, hk, hr, hip⟩ := init_cases c
    · exact absurd (hf.symm.trans h) InitResult.noConfusion
    · obtain rfl := InitResult.ready.inj (hr.symm.trans h)
      exact ⟨rfl, hpos, hk, hip⟩

/-- `nf_init` does not write past the array. -/
theorem nfInit_legal (items : ConfigItems) : nfInit items ≠ .illegalWrite := by
  unfold nfInit
  cases readConfig items with
  | none => exact InitResult.noConfusion
  | some c =>
    intro h
    obtain hf | ⟨-, clients, l, -, hr, -⟩ := init_cases c
    · exact absurd (hf.symm.trans h) InitResult.noConfusion
    · exact absurd (hr.symm.trans h) InitResult.noConfusion

/-! ### Host addresses -/

/-- A contiguous mask clears the low bits. -/
theorem and_mask {h x : ℕ} (hh : h ≤ 32) (hx : x < 2 ^ 32) : x &&& (2 ^ 32 - 2 ^ h) = x / 2 ^ h * 2 ^ h := by
  have hmask : 2 ^ 32 - 2 ^ h = (2 ^ (32 - h) - 1) * 2 ^ h := by
    rw [Nat.sub_mul, ← Nat.pow_add, Nat.sub_add_cancel hh, Nat.one_mul]
  apply Nat.eq_of_testBit_eq
  intro i
  rw [hmask, ← Nat.shiftLeft_eq, ← Nat.shiftLeft_eq, ← Nat.shiftRight_eq_div_pow, Nat.testBit_and,
    Nat.testBit_shiftLeft, Nat.testBit_shiftLeft, Nat.testBit_two_pow_sub_one, Nat.testBit_shiftRight]
  by_cases hi : h ≤ i
  · by_cases hlt : i < 32
    · simp [hi, show i - h < 32 - h by omega]
    · have hpow : 2 ^ 32 ≤ 2 ^ i := Nat.pow_le_pow_right (by omega) (by omega)
      rw [show h + (i - h) = i by omega, Nat.testBit_lt_two_pow (by omega : x < 2 ^ i)]
      simp
  · simp [hi]

namespace Config

variable (c : Config)

/-- `ip_subnet` with all host bits set. -/
def broadcast : UInt32 := c.ipSubnet ||| ~~~c.subnetMask

/-- The mask is ones followed by zeros. -/
def Contiguous : Prop := ∃ h ≤ 32, c.subnetMask.toNat = 2 ^ 32 - 2 ^ h

/-- A host address of the server's subnet, that nobody has. -/
structure Host (ip : UInt32) : Prop where
  subnet : ip &&& c.subnetMask = c.ipSubnet
  network_lt : c.ipSubnet < ip
  lt_broadcast : ip < c.broadcast
  ne_server : ip ≠ c.serverIp
  ne_gateway : ip ≠ c.gatewayIp
  ne_dns : ip ≠ c.dnsServerIp

/-- The host addresses of the subnet that nobody has. -/
def freeHosts : Finset ℕ :=
  Finset.Ioo c.ipSubnet.toNat c.broadcast.toNat \ {c.serverIp.toNat, c.gatewayIp.toNat, c.dnsServerIp.toNat}

/-- The addresses that the loop takes if nothing stops it. -/
def loopAddresses : Finset ℕ :=
  Finset.Ico (c.ipSubnet + 1).toNat c.bound \ {c.serverIp.toNat, c.gatewayIp.toNat, c.dnsServerIp.toNat}

variable {c}

/-- The bound of the loop is the broadcast address. -/
theorem broadcast_toNat : c.broadcast.toNat = c.bound := by
  have hdisj : c.ipSubnet.toBitVec &&& ~~~c.subnetMask.toBitVec = 0#32 := by
    rw [ipSubnet, UInt32.toBitVec_and, BitVec.and_assoc]
    ext i
    simp
  have hor := congrArg BitVec.toNat (BitVec.add_eq_or_of_and_eq_zero _ _ hdisj)
  have hb := @bound_lt c
  have hnum := @numIpv4AddrAvail_eq c
  rw [BitVec.toNat_add, BitVec.toNat_not, UInt32.toNat_toBitVec, UInt32.toNat_toBitVec] at hor
  have hbr : c.broadcast.toNat = (c.ipSubnet.toBitVec ||| ~~~c.subnetMask.toBitVec).toNat := rfl
  rw [hbr, ← hor, ← hnum]
  exact Nat.mod_eq_of_lt hb

/-- The addresses between the network and the broadcast address are in the subnet. -/
theorem Contiguous.subnet (hc : c.Contiguous) {ip : UInt32} (h1 : c.ipSubnet < ip) (h2 : ip < c.broadcast) :
    ip &&& c.subnetMask = c.ipSubnet := by
  obtain ⟨h, hh, hmask⟩ := hc
  have hpow : 2 ^ h ≤ 2 ^ 32 := Nat.pow_le_pow_right (by omega) hh
  have hpos := Nat.two_pow_pos h
  rw [UInt32.lt_iff_toNat_lt] at h1 h2
  rw [broadcast_toNat, bound, numIpv4AddrAvail_eq, hmask] at h2
  rw [← UInt32.toNat_inj, UInt32.toNat_and, hmask, and_mask hh ip.toNat_lt]
  have hs : c.ipSubnet.toNat = c.serverIp.toNat / 2 ^ h * 2 ^ h := by
    rw [ipSubnet, UInt32.toNat_and, hmask, and_mask hh c.serverIp.toNat_lt]
  have hdiv : ip.toNat / 2 ^ h = c.serverIp.toNat / 2 ^ h := by
    apply Nat.div_eq_of_lt_le
    · omega
    · rw [Nat.add_one_mul]
      omega
  rw [hdiv, hs]

theorem mem_remaining {next ip : UInt32} :
    ip ∈ c.remaining next ↔ next ≤ ip ∧ ip.toNat < c.bound ∧ c.reserved ip = false := by
  have hb := @bound_lt c
  rw [remaining, List.mem_filter, List.mem_map, UInt32.le_iff_toNat_le, ← and_assoc]
  refine and_congr ⟨?_, fun h => ?_⟩ (by simp)
  · rintro ⟨n, hn, rfl⟩
    rw [List.mem_range'_1] at hn
    rw [UInt32.toNat_ofNat']
    omega
  · exact ⟨ip.toNat, List.mem_range'_1.mpr (by omega), UInt32.ofNat_toNat⟩

theorem remaining_nodup (next : UInt32) : (c.remaining next).Nodup := by
  have hb := @bound_lt c
  refine List.Nodup.filter _ (List.Nodup.map_on (fun m hm n hn he => ?_) List.nodup_range')
  rw [List.mem_range'_1] at hm hn
  have hnat := congrArg UInt32.toNat he
  rw [UInt32.toNat_ofNat', UInt32.toNat_ofNat'] at hnat
  omega

theorem reserved_eq_false {ip : UInt32} :
    c.reserved ip = false ↔ ip ≠ c.serverIp ∧ ip ≠ c.gatewayIp ∧ ip ≠ c.dnsServerIp := by
  simp [reserved, and_assoc]

/-- The loop starts after the network address, except that 2^32 - 1 is followed by 0. -/
theorem start_toNat (h : c.ipSubnet.toNat < c.bound) : (c.ipSubnet + 1).toNat = c.ipSubnet.toNat + 1 := by
  have hb := @bound_lt c
  rw [UInt32.toNat_add, UInt32.toNat_one]
  omega

/-- What the loop takes is a free host, and the other way round. -/
theorem mem_remaining_start (hc : c.Contiguous) (h : c.ipSubnet.toNat < c.bound) {ip : UInt32} :
    ip ∈ c.remaining (c.ipSubnet + 1) ↔ c.Host ip := by
  rw [mem_remaining, UInt32.le_iff_toNat_le, start_toNat h, reserved_eq_false]
  constructor
  · rintro ⟨h1, h2, h3, h4, h5⟩
    have hn : c.ipSubnet < ip := UInt32.lt_iff_toNat_lt.mpr h1
    have hb : ip < c.broadcast := UInt32.lt_iff_toNat_lt.mpr (by rwa [broadcast_toNat])
    exact ⟨hc.subnet hn hb, hn, hb, h3, h4, h5⟩
  · rintro ⟨-, h1, h2, h3, h4, h5⟩
    rw [UInt32.lt_iff_toNat_lt] at h1 h2
    rw [broadcast_toNat] at h2
    exact ⟨h1, h2, h3, h4, h5⟩

theorem mem_loopAddresses {ip : UInt32} : ip.toNat ∈ c.loopAddresses ↔ ip ∈ c.remaining (c.ipSubnet + 1) := by
  rw [mem_remaining, loopAddresses, Finset.mem_sdiff, Finset.mem_Ico, reserved_eq_false, UInt32.le_iff_toNat_le]
  simp only [Finset.mem_insert, Finset.mem_singleton, not_or, UInt32.toNat_inj, and_assoc, ne_eq]

theorem loopAddresses_card : c.loopAddresses.card = (c.remaining (c.ipSubnet + 1)).length := by
  have hnodup : ((c.remaining (c.ipSubnet + 1)).map UInt32.toNat).Nodup :=
    (remaining_nodup _).map fun _ _ he => UInt32.toNat_inj.mp he
  rw [← List.length_map UInt32.toNat, ← List.toFinset_card_of_nodup hnodup]
  congr 1
  ext n
  rw [List.mem_toFinset, List.mem_map]
  constructor
  · intro hn
    have hb := @bound_lt c
    have hlt := (Finset.mem_Ico.mp (Finset.mem_sdiff.mp hn).1).2
    have heq : (UInt32.ofNat n).toNat = n := by rw [UInt32.toNat_ofNat']; omega
    exact ⟨UInt32.ofNat n, mem_loopAddresses.mp (by rwa [heq]), heq⟩
  · rintro ⟨ip, hip, rfl⟩
    exact mem_loopAddresses.mpr hip

/-- The loop takes the free hosts, if there is any address in between. -/
theorem loopAddresses_eq (h : c.ipSubnet.toNat < c.bound) : c.loopAddresses = c.freeHosts := by
  rw [loopAddresses, freeHosts, start_toNat h, broadcast_toNat, Finset.Ico_add_one_left_eq_Ioo]

/-- At most three addresses of the subnet are taken. -/
theorem le_card_freeHosts : c.numIpv4AddrAvail ≤ c.freeHosts.card + 4 := by
  have hsub := Finset.le_card_sdiff {c.serverIp.toNat, c.gatewayIp.toNat, c.dnsServerIp.toNat}
    (Finset.Ioo c.ipSubnet.toNat c.broadcast.toNat)
  have hthree : ({c.serverIp.toNat, c.gatewayIp.toNat, c.dnsServerIp.toNat} : Finset ℕ).card ≤ 3 :=
    Finset.card_le_three
  rw [Nat.card_Ioo, ← freeHosts, broadcast_toNat, bound] at hsub
  omega

/-- With 4 addresses or more, or few connections, there are enough free hosts. -/
theorem capacity_le_iff (hmax : c.maxConnections * 64 ≤ sizeMax) :
    c.capacity ≤ c.freeHosts.card ↔ 4 ≤ c.numIpv4AddrAvail ∨ c.maxConnections ≤ c.freeHosts.card := by
  have hnum : c.numIpv4AddrAvail < 2 ^ 64 := by
    rw [numIpv4AddrAvail_eq]
    omega
  have hcard := @le_card_freeHosts c
  by_cases h4 : 4 ≤ c.numIpv4AddrAvail
  · refine iff_of_true ?_ (Or.inl h4)
    rw [capacity, sub64_of_le h4 hnum]
    split <;> omega
  · have hsub : ¬ sub64 c.numIpv4AddrAvail 4 < c.maxConnections := by
      unfold sub64 sizeMax at *
      omega
    rw [capacity, if_neg hsub, or_iff_right h4]

end Config

/-- The entries of `ip_addresses` are distinct free hosts. -/
structure HostAddresses (s : State) : Prop where
  host : ∀ i < s.config.capacity, s.config.Host (s.ip i)
  inj : ∀ i < s.config.capacity, ∀ j < s.config.capacity, s.ip i = s.ip j → i = j

theorem ready_maxConnections {items : ConfigItems} {c : Config} (h : readConfig items = some c) :
    c.maxConnections * 64 ≤ sizeMax := by
  simp only [readConfig, Option.bind_eq_bind, Option.bind_eq_some_iff, Option.pure_def, Option.some.injEq] at h
  obtain ⟨n, hn, -, -, -, -, -, -, -, -, -, -, -, -, rfl⟩ := h
  exact osConfigGetSize_le hn

theorem Config.capacity_le (c : Config) : c.capacity ≤ c.maxConnections := by
  unfold Config.capacity
  split <;> omega

/-- `nf_init` returns true when the capacity is not 0. -/
theorem nfInit_isReady {items : ConfigItems} {c : Config} (h : readConfig items = some c) (hpos : 0 < c.capacity) :
    ∃ s, nfInit items = .ready s ∧ s.config = c := by
  have hle := c.capacity_le
  have hmax := ready_maxConnections h
  obtain ⟨clients, hk, -⟩ := KeyedPool.keyedPoolAlloc_inv (K := EtherAddr) etherAddrSize c.expirationTime.toNat
    (show c.capacity * 64 ≤ sizeMax by omega)
  obtain ⟨l, hl, -⟩ := @populate_spec c _ (c.ipSubnet + 1) 0 (List.replicate c.capacity 0) le_rfl
    List.length_replicate hpos
  have hinit : init c = .ready ⟨c, l, clients⟩ := by rw [init, if_neg (by omega), hk, hl]
  refine ⟨⟨c, l, clients⟩, ?_, rfl⟩
  unfold nfInit
  rw [h]
  exact hinit

/-- The entries are free hosts when there are enough of these. -/
theorem hostAddresses_iff_card {s : State} (hc : s.config.Contiguous) (hpos : 0 < s.config.capacity)
    (hip : ∀ i < s.config.capacity, s.ip i = (s.config.remaining (s.config.ipSubnet + 1)).getD i 0) :
    HostAddresses s ↔ s.config.capacity ≤ s.config.freeHosts.card := by
  by_cases hnet : s.config.ipSubnet.toNat < s.config.bound
  · rw [← Config.loopAddresses_eq hnet, Config.loopAddresses_card]
    constructor
    · intro h
      by_contra hlt
      -- the first entry that the loop does not fill is zero
      have hzero := (h.host (s.config.remaining (s.config.ipSubnet + 1)).length (by omega)).network_lt
      rw [hip _ (by omega), List.getD_eq_default _ _ le_rfl, UInt32.lt_iff_toNat_lt, UInt32.toNat_zero] at hzero
      omega
    · intro hle
      have hget : ∀ i (hi : i < s.config.capacity), s.ip i =
          (s.config.remaining (s.config.ipSubnet + 1)).get ⟨i, by omega⟩ := fun i hi =>
        (hip i hi).trans (List.getD_eq_getElem _ _ (by omega))
      refine ⟨fun i hi => ?_, fun i hi j hj he => ?_⟩
      · rw [hget i hi, ← Config.mem_remaining_start hc hnet]
        exact List.get_mem _ _
      · rw [hget i hi, hget j hj] at he
        exact Fin.mk.inj_iff.mp (List.nodup_iff_injective_get.mp (Config.remaining_nodup _) he)
  · -- no address lies between the network and the broadcast address
    have hempty : s.config.freeHosts.card = 0 := by
      rw [Config.freeHosts, Finset.Ioo_eq_empty (by rw [Config.broadcast_toNat]; exact hnet), Finset.empty_sdiff,
        Finset.card_empty]
    refine iff_of_false (fun h => ?_) (by omega)
    obtain ⟨-, h1, h2, -, -, -⟩ := h.host 0 hpos
    rw [UInt32.lt_iff_toNat_lt] at h1 h2
    rw [Config.broadcast_toNat] at h2
    omega

/-- **The address pool.** For every configuration with a contiguous mask, `nf_init` does not write past
the array; and if it returns true, the entries are distinct free hosts exactly when the mask leaves at
least 4 addresses above the network address or the configured number of connections is at most the
number of free hosts. -/
theorem dhcp_addresses (items : ConfigItems) (c : Config) (hread : readConfig items = some c) (hc : c.Contiguous) :
    nfInit items ≠ .illegalWrite ∧ ∀ s, nfInit items = .ready s →
      (HostAddresses s ↔ 4 ≤ c.numIpv4AddrAvail ∨ c.maxConnections ≤ c.freeHosts.card) := by
  refine ⟨nfInit_legal items, fun s h => ?_⟩
  obtain ⟨hs, hpos, -, hip⟩ := nfInit_ready h
  obtain rfl : c = s.config := Option.some.inj (hread.symm.trans hs)
  rw [hostAddresses_iff_card hc hpos hip, Config.capacity_le_iff (ready_maxConnections hread)]

/-- A server with the mask of a number of host bits, at the first address. -/
def demoItems (mask connections : UInt64) : ConfigItems :=
  [("max number dhcp connections", connections), ("DHCP ipv4 address", 0x0A000001), ("DHCP ipv4 mask", mask),
    ("gateway ipv4 address", 0x0A000001), ("domain name server ip", 0x08080808), ("expiration time", 3600),
    ("server ether address", 1)]

def demoConfig (mask : UInt32) (connections : ℕ) : Config where
  maxConnections := connections
  serverIp := 0x0A000001
  subnetMask := mask
  gatewayIp := 0x0A000001
  dnsServerIp := 0x08080808
  expirationTime := 3600
  serverEtherAddr := 1

theorem dhcp_addresses_29 : nfInit (demoItems 0xFFFFFFF8 2) ≠ .illegalWrite ∧
    ∀ s, nfInit (demoItems 0xFFFFFFF8 2) = .ready s →
      (HostAddresses s ↔ 4 ≤ (demoConfig 0xFFFFFFF8 2).numIpv4AddrAvail ∨
        (demoConfig 0xFFFFFFF8 2).maxConnections ≤ (demoConfig 0xFFFFFFF8 2).freeHosts.card) :=
  dhcp_addresses _ _ rfl ⟨3, by decide, by decide⟩

/-- With 30 bits of mask and 2 connections, there is one free host. -/
theorem dhcp_addresses_not : ¬ ∀ (items : ConfigItems) (c : Config) (s : State), readConfig items = some c →
    c.Contiguous → nfInit items = .ready s → HostAddresses s := by
  intro h
  have hmask : (demoConfig 0xFFFFFFFC 2).Contiguous := ⟨2, by decide, by decide⟩
  obtain ⟨s, hs, hcfg⟩ := @nfInit_isReady (demoItems 0xFFFFFFFC 2) (demoConfig 0xFFFFFFFC 2) rfl (by decide)
  obtain ⟨-, hpos, -, hip⟩ := nfInit_ready hs
  have hle := (hostAddresses_iff_card (hcfg ▸ hmask) hpos hip).mp (h _ _ s rfl hmask hs)
  rw [hcfg] at hle
  revert hle
  decide

end Dhcp
end Klint
