/-
# Leases of the DHCP server

The answers to the discovers and requests of clients, over whole runs. A client
is told the expiration time as a lease in seconds, while the index pool counts
it in nanoseconds. `dhcp_lease`: as long as no new client is given an index
whose lease in seconds still runs, an address that was acknowledged stays with
its client until the end of the lease.
-/
import Klint.Nf.Dhcp

namespace Klint
namespace Dhcp

/-! ### Answering a client -/

/-- The values that both responses carry, after their codes. -/
def fillResponse (c : Config) (options : ℕ → UInt8) : ℕ → UInt8 :=
  let options := store32 options 5 c.serverIp
  let options := store32 options 29 c.dnsServerIp
  let options := store32 options 23 c.gatewayIp
  let options := store32 options 11 c.subnetMask
  store32 options 17 c.expirationTime

def createDhcpAckMessage (c : Config) (header : Header) (clientIpAddress : UInt32) : Header :=
  { header with
    op := BOOTREPLY
    yaddr := clientIpAddress
    options := fillResponse c (setDhcpAckOption header.options) }

/-- "creating the dhcp offer message response". -/
def createOffer (c : Config) (header : Header) (yaddr : UInt32) : Header :=
  { header with
    op := BOOTREPLY
    yaddr := yaddr
    options := fillResponse c (setDhcpOfferOption header.options) }

variable (hash : EtherAddr → UInt32)

/-- The header is `some` where the C function returns true. -/
def isDhcpRequestMessageAccepted (s : State) (header : Header) (time : ℕ) : State × Option Header :=
  match s.clients.find hash (clientIdentifierValue header.options) with
  | some index =>
    if s.ip index = requestedIpAddressValue header.options then
      ({ s with clients := s.clients.refresh time index }, some (createDhcpAckMessage s.config header (s.ip index)))
    else (s, some { header with options := setDhcpNackOption header.options })
  | none => (s, none)

def tryCreateDhcpDiscoverMessage (s : State) (header : Header) (time : ℕ) : State × Option Header :=
  match s.clients.find hash (clientIdentifierValue header.options) with
  | some index =>
    ({ s with clients := s.clients.refresh time index }, some (createOffer s.config header (s.ip index)))
  | none =>
    match s.clients.insert hash time (clientIdentifierValue header.options) with
    | (some index, clients) =>
      ({ s with clients := clients }, some (createOffer s.config header (s.ip index)))
    | (none, clients) => ({ s with clients := clients }, none)  -- No index can be freed at this time

/-! ### Runs -/

inductive Kind
  | discover
  | request
  deriving DecidableEq, Repr

/-- A call of one of the two functions. -/
structure Call where
  kind : Kind
  header : Header
  time : ℕ

/-- The client that sent the message. -/
def Call.client (call : Call) : EtherAddr := clientIdentifierValue call.header.options

/-- An answer, and what it answers. -/
structure Reply where
  call : Call
  header : Header

/-- A number of seconds in nanoseconds. -/
def seconds (n : UInt32) : ℕ := n.toNat * 10 ^ 9

namespace Reply

/-- The client is told that it has the address. -/
def Ack (r : Reply) : Prop := messageTypeValue r.header.options = DHCPACK

/-- The client is offered the address, or told that it has it. -/
def Grants (r : Reply) : Prop :=
  messageTypeValue r.header.options = DHCPOFFER ∨ messageTypeValue r.header.options = DHCPACK

/-- The end of the lease, which the option gives in seconds. -/
def leaseEnd (r : Reply) : ℕ := r.call.time + seconds (leaseTimeValue r.header.options)

/-- If the first reply acknowledges an address and the second one grants it to
another client, the lease has ended. -/
def Respects (r r' : Reply) : Prop :=
  r.Ack → r'.Grants → r'.header.yaddr = r.header.yaddr → r'.call.client ≠ r.call.client → r.leaseEnd ≤ r'.call.time

end Reply

def step (s : State) (call : Call) : State × Option Header :=
  match call.kind with
  | .discover => tryCreateDhcpDiscoverMessage hash s call.header call.time
  | .request => isDhcpRequestMessageAccepted hash s call.header call.time

/-- The state after some calls. -/
def run : State → List Call → State
  | s, [] => s
  | s, call :: calls => run (step hash s call).1 calls

/-- The answers to some calls. -/
def replies : State → List Call → List Reply
  | _, [] => []
  | s, call :: calls =>
    ((step hash s call).2.map fun header => ⟨call, header⟩).toList ++ replies (step hash s call).1 calls

/-- The map binds the client to the index of the address. -/
def Assigned (s : State) (client : EtherAddr) (address : UInt32) : Prop :=
  ∃ q i, s.clients.map.Entry q i ∧ keyMem s.clients.keys q etherAddrSize = client ∧ s.ip i = address

/-- An address has one client at most, and a client one address. -/
structure Exclusive (s : State) : Prop where
  client : ∀ a b address, Assigned s a address → Assigned s b address → a = b
  address : ∀ client x y, Assigned s client x → Assigned s client y → x = y

/-- If a new client is given an index that is bound, then the lease in seconds of
its last client has ended. -/
def CallOk (s : State) (call : Call) : Prop :=
  call.kind = .discover → s.clients.find hash call.client = none → ∀ i ts,
    (s.clients.insert hash call.time call.client).1 = some i → s.clients.pool.items i = some ts →
    ts + seconds s.config.expirationTime ≤ call.time

/-- `CallOk` in front of every call. -/
def CallsOk : State → List Call → Prop
  | _, [] => True
  | s, call :: calls => CallOk hash s call ∧ CallsOk (step hash s call).1 calls

instance (s : State) (call : Call) : Decidable (CallOk hash s call) :=
  decidable_of_iff (call.kind = .discover → s.clients.find hash call.client = none →
      ∀ i ∈ (s.clients.insert hash call.time call.client).1, ∀ ts ∈ s.clients.pool.items i,
        ts + seconds s.config.expirationTime ≤ call.time)
    ⟨fun h hkind hfind i ts hi hts => h hkind hfind i hi ts hts,
      fun h hkind hfind i hi ts hts => h hkind hfind i ts hi hts⟩

instance CallsOk.decidable : ∀ (s : State) (calls : List Call), Decidable (CallsOk hash s calls)
  | _, [] => inferInstanceAs (Decidable True)
  | s, call :: calls =>
    have := CallsOk.decidable (step hash s call).1 calls
    inferInstanceAs (Decidable (CallOk hash s call ∧ CallsOk hash (step hash s call).1 calls))

/-! ### The messages -/

theorem leaseTime_fillResponse (c : Config) (options : ℕ → UInt8) :
    leaseTimeValue (fillResponse c options) = c.expirationTime := load32_store32 _ _ _

/-! ### The addresses of the pool -/

/-- A list without repetitions, padded with one zero at most if it has none. -/
theorem padded_inj {l : List UInt32} (hl : l.Nodup) {n : ℕ} (hn : n ≤ l.length ∨ n ≤ l.length + 1 ∧ 0 ∉ l) {i j : ℕ}
    (hi : i < n) (hj : j < n) (h : l.getD i 0 = l.getD j 0) : i = j := by
  wlog hle : i ≤ j with hsymm
  · exact (hsymm hl hn hj hi h.symm (by omega)).symm
  by_cases hil : i < l.length
  · rw [List.getD_eq_getElem _ _ hil] at h
    by_cases hjl : j < l.length
    · rw [List.getD_eq_getElem _ _ hjl] at h
      exact hl.getElem_inj_iff.mp h
    · rw [List.getD_eq_default _ _ (by omega)] at h
      have hmem := List.getElem_mem hil
      rw [h] at hmem
      obtain hn | ⟨-, h0⟩ := hn
      · omega
      · exact absurd hmem h0
  · omega

/-- The condition on the configuration: enough addresses for the connections, or
one too few. -/
def EnoughAddresses (c : Config) : Prop :=
  4 ≤ c.numIpv4AddrAvail ∨ c.maxConnections ≤ (insert 0 c.loopAddresses).card

/-- The addresses of different indexes are different. -/
theorem ip_inj {items : ConfigItems} {s : State} (hinit : nfInit items = .ready s) (henough : EnoughAddresses s.config)
    {i j : ℕ} (hi : i < s.config.capacity) (hj : j < s.config.capacity) (h : s.ip i = s.ip j) : i = j := by
  obtain ⟨hread, hpos, -, hip⟩ := nfInit_ready hinit
  rw [hip i hi, hip j hj] at h
  refine padded_inj (Config.remaining_nodup _) ?_ hi hj h
  rw [← Config.loopAddresses_card]
  obtain h4 | hmax := henough
  · left
    have hnet : s.config.ipSubnet.toNat < s.config.bound := by
      rw [Config.bound]
      omega
    rw [Config.loopAddresses_eq hnet]
    exact (Config.capacity_le_iff (ready_maxConnections hread)).mpr (Or.inl h4)
  · have hle := s.config.capacity_le.trans hmax
    by_cases h0 : 0 ∈ s.config.loopAddresses
    · rw [Finset.insert_eq_of_mem h0] at hle
      exact Or.inl hle
    · rw [Finset.card_insert_of_notMem h0] at hle
      refine Or.inr ⟨hle, fun hmem => h0 ?_⟩
      exact Config.mem_loopAddresses.mpr hmem

/-! ### One call -/

section Step

variable {hash} {n : ℕ} {s : State} {call : Call}

/-- What a call does that answers with an address: the index is the client's, and
its old binding was the client's or its lease has ended. -/
structure Granted (hash : EtherAddr → UInt32) (n : ℕ) (s : State) (call : Call) (s' : State) (i : ℕ)
    (header : Header) : Prop where
  lt : i < n
  inv : s'.clients.Inv hash n
  config : s'.config = s.config
  ip : s'.ipAddresses = s.ipAddresses
  items : s'.clients.pool.items = Function.update s.clients.pool.items i (some call.time)
  key : s'.clients.key = Function.update s.clients.key i call.client
  old : ∀ ts, s.clients.pool.items i = some ts →
    s.clients.key i = call.client ∨ ts + seconds s.config.expirationTime ≤ call.time
  yaddr : header.yaddr = s.ip i
  lease : leaseTimeValue header.options = s.config.expirationTime

/-- A refresh keeps the keys, and the client's key is its own. -/
theorem granted_refresh (h : s.clients.Inv hash n) (ht : call.time ≠ timeMax) {i : ℕ}
    (hf : s.clients.find hash call.client = some i) {header : Header} (hy : header.yaddr = s.ip i)
    (hl : leaseTimeValue header.options = s.config.expirationTime) :
    Granted hash n s call { s with clients := s.clients.refresh call.time i } i header := by
  obtain ⟨⟨ts, hts⟩, hkey⟩ := h.find_iff.mp hf
  obtain ⟨hinv, hitems⟩ := h.refresh ht (by rw [hts]; rfl)
  refine ⟨h.lt_of_items hts, hinv, rfl, rfl, hitems, ?_, fun _ _ => Or.inl hkey, hy, hl⟩
  rw [← hkey, Function.update_eq_self]
  rfl

/-- A call does not answer and changes nothing, or it refuses the address and changes
nothing, or it grants an address. -/
theorem step_cases (h : s.clients.Inv hash n) (ht : call.time ≠ timeMax) (hok : CallOk hash s call) :
    (step hash s call).1 = s ∧ (∀ header, (step hash s call).2 = some header → ¬ (Reply.mk call header).Grants) ∨
    ∃ i header, (step hash s call).2 = some header ∧ Granted hash n s call (step hash s call).1 i header := by
  unfold step
  cases hk : call.kind with
  | request =>
    simp only [isDhcpRequestMessageAccepted]
    cases hf : s.clients.find hash (clientIdentifierValue call.header.options) with
    | none => exact Or.inl ⟨by trivial, fun _ hh => by cases hh⟩
    | some i =>
      by_cases hip : s.ip i = requestedIpAddressValue call.header.options
      · simp only [if_pos hip]
        exact Or.inr ⟨i, _, rfl, granted_refresh h ht hf rfl (leaseTime_fillResponse _ _)⟩
      · simp only [if_neg hip]
        refine Or.inl ⟨by trivial, fun header hh => ?_⟩
        obtain rfl := Option.some.inj hh
        rintro (htype | htype)
        · exact absurd htype (by decide : DHCPNAK ≠ DHCPOFFER)
        · exact absurd htype (by decide : DHCPNAK ≠ DHCPACK)
  | discover =>
    simp only [tryCreateDhcpDiscoverMessage]
    cases hf : s.clients.find hash (clientIdentifierValue call.header.options) with
    | some i => exact Or.inr ⟨i, _, rfl, granted_refresh h ht hf rfl (leaseTime_fillResponse _ _)⟩
    | none =>
      obtain ⟨i, t', hins, hin, -, hinv, hitems, hkey, -⟩ | ⟨hins, -⟩ := h.insert_cases ht hf
      · simp only [hins]
        refine Or.inr ⟨i, _, rfl, hin, hinv, rfl, rfl, hitems, hkey, fun ts hts => Or.inr ?_, rfl,
          leaseTime_fillResponse _ _⟩
        exact hok hk hf i ts (congrArg Prod.fst hins) hts
      · simp only [hins]
        exact Or.inl ⟨by trivial, fun _ hh => by cases hh⟩

end Step

/-! ### Whole runs -/

/-- What holds of a server in every state. -/
structure Good (hash : EtherAddr → UInt32) (s : State) : Prop where
  inv : s.clients.Inv hash s.config.capacity
  inj : ∀ i < s.config.capacity, ∀ j < s.config.capacity, s.ip i = s.ip j → i = j

section Runs

variable {hash} {s : State}

theorem nfInit_good {items : ConfigItems} (hinit : nfInit items = .ready s) (henough : EnoughAddresses s.config) :
    Good hash s := by
  obtain ⟨hread, -, hk, -⟩ := nfInit_ready hinit
  have hle := s.config.capacity_le
  have hmax := ready_maxConnections hread
  obtain ⟨clients, hk', hinv, -⟩ := KeyedPool.keyedPoolAlloc_inv (K := EtherAddr) etherAddrSize
    s.config.expirationTime.toNat (show s.config.capacity * 64 ≤ sizeMax by omega)
  obtain rfl : s.clients = clients := Option.some.inj (hk.symm.trans hk')
  exact ⟨hinv hash, fun i hi j hj h => ip_inj hinit henough hi hj h⟩

theorem Granted.good {call : Call} {s' : State} {i : ℕ} {header : Header} (h : Good hash s)
    (hg : Granted hash s.config.capacity s call s' i header) : Good hash s' := by
  have hip : s'.ip = s.ip := by
    funext j
    rw [State.ip, State.ip, hg.ip]
  refine ⟨hg.config ▸ hg.inv, ?_⟩
  rw [hg.config, hip]
  exact h.inj

theorem step_good (h : Good hash s) {call : Call} (ht : call.time ≠ timeMax) (hok : CallOk hash s call) :
    Good hash (step hash s call).1 := by
  obtain ⟨hs, -⟩ | ⟨i, header, -, hg⟩ := step_cases h.inv ht hok
  · rw [hs]
    exact h
  · exact hg.good h

theorem run_good : ∀ {calls : List Call} {s : State}, Good hash s → (∀ call ∈ calls, call.time ≠ timeMax) →
    CallsOk hash s calls → Good hash (run hash s calls)
  | [], _, h, _, _ => h
  | call :: _, _, h, ht, hok => by
    rw [run]
    exact run_good (step_good h (ht call List.mem_cons_self) hok.1) (fun c hc => ht c (List.mem_cons_of_mem _ hc)) hok.2

/-- In such a state each address has one client and each client one address. -/
theorem Good.exclusive (h : Good hash s) : Exclusive s := by
  have hcases : ∀ client address, Assigned s client address →
      ∃ i ts, s.clients.pool.items i = some ts ∧ s.clients.key i = client ∧ s.ip i = address := by
    rintro client address ⟨q, i, hq, hkey, hip⟩
    obtain ⟨rfl, ts, hts⟩ := (h.inv.entry q i).mp hq
    exact ⟨i, ts, hts, hkey, hip⟩
  refine ⟨fun a b address ha hb => ?_, fun client x y hx hy => ?_⟩
  · obtain ⟨i, ts, hi, rfl, rfl⟩ := hcases a address ha
    obtain ⟨j, ts', hj, rfl, hip⟩ := hcases b _ hb
    rw [h.inj j (h.inv.lt_of_items hj) i (h.inv.lt_of_items hi) hip]
  · obtain ⟨i, ts, hi, rfl, rfl⟩ := hcases client x hx
    obtain ⟨j, ts', hj, hkey, rfl⟩ := hcases _ y hy
    rw [h.inv.key_inj hj hi hkey]

/-- The client has the address, and was last heard of at a time or later. -/
def Holds (s : State) (client : EtherAddr) (address : UInt32) (time : ℕ) : Prop :=
  ∃ i ts, s.clients.pool.items i = some ts ∧ time ≤ ts ∧ s.clients.key i = client ∧ s.ip i = address

/-- A granted address is held from then on. -/
theorem Granted.holds {call : Call} {s' : State} {i n : ℕ} {header : Header} (hg : Granted hash n s call s' i header) :
    Holds s' call.client header.yaddr call.time := by
  refine ⟨i, call.time, ?_, le_rfl, ?_, ?_⟩
  · rw [hg.items, Function.update_self]
  · rw [hg.key, Function.update_self]
  · rw [hg.yaddr, State.ip, State.ip, hg.ip]

/-- The other indexes stay as they are. -/
theorem Granted.other {call : Call} {s' : State} {i n : ℕ} {header : Header} (hg : Granted hash n s call s' i header)
    {j : ℕ} (hj : j ≠ i) : s'.clients.pool.items j = s.clients.pool.items j ∧ s'.clients.key j = s.clients.key j ∧
      s'.ip j = s.ip j := by
  rw [hg.items, hg.key, Function.update_of_ne hj, Function.update_of_ne hj, State.ip, State.ip, hg.ip]
  exact ⟨rfl, rfl, rfl⟩

theorem mem_replies : ∀ {calls : List Call} {s : State} {r : Reply}, r ∈ replies hash s calls → r.call ∈ calls
  | call :: calls, s, r, hr => by
    rw [replies, List.mem_append, Option.mem_toList, Option.map_eq_some_iff] at hr
    obtain ⟨header, -, rfl⟩ | hr := hr
    · exact List.mem_cons_self
    · exact List.mem_cons_of_mem _ (mem_replies hr)

theorem step_config (call : Call) : (step hash s call).1.config = s.config := by
  unfold step isDhcpRequestMessageAccepted tryCreateDhcpDiscoverMessage
  split
  · split
    · rfl
    · split <;> rfl
  · split
    · split <;> rfl
    · rfl

/-- While an address is held and its lease runs, it is granted to no other client. -/
theorem held_respected {client : EtherAddr} {address : UInt32} {time : ℕ} :
    ∀ {calls : List Call} {s : State}, Good hash s → (∀ call ∈ calls, call.time ≠ timeMax) →
    CallsOk hash s calls → calls.Pairwise (·.time ≤ ·.time) → (∀ call ∈ calls, time ≤ call.time) →
    Holds s client address time → ∀ r ∈ replies hash s calls, r.Grants → r.header.yaddr = address →
    r.call.client ≠ client → time + seconds s.config.expirationTime ≤ r.call.time
  | call :: calls, s, h, ht, hok, hsorted, hle, hheld, r, hr, hgr, hy, hne => by
    have htc := ht call List.mem_cons_self
    have ht' : ∀ c ∈ calls, c.time ≠ timeMax := fun c hc => ht c (List.mem_cons_of_mem _ hc)
    have hle' : ∀ c ∈ calls, time ≤ c.time := fun c hc => hle c (List.mem_cons_of_mem _ hc)
    obtain ⟨hafter, hsorted'⟩ := List.pairwise_cons.mp hsorted
    have hcfg : (step hash s call).1.config = s.config := step_config call
    rw [replies, List.mem_append, Option.mem_toList, Option.map_eq_some_iff] at hr
    obtain ⟨hs, hrefuse⟩ | ⟨i, header, hreply, hg⟩ := step_cases h.inv htc hok.1
    · -- the state is the same, and a reply that grants comes later
      obtain ⟨header, hheader, rfl⟩ | hr := hr
      · exact absurd hgr (hrefuse header hheader)
      · rw [hs] at hr
        exact held_respected h ht' (hs ▸ hok.2) hsorted' hle' hheld r hr hgr hy hne
    · by_cases hended : time + seconds s.config.expirationTime ≤ call.time
      · obtain ⟨header', -, rfl⟩ | hr := hr
        · exact hended
        · exact hended.trans (hafter r.call (mem_replies hr))
      · -- the index that is granted is another one, or still its client's
        obtain ⟨j, ts, hts, htime, hkey, hip⟩ := hheld
        have hown : i = j → call.client = client := by
          rintro rfl
          obtain hold | hold := hg.old ts hts
          · exact hold.symm.trans hkey
          · omega
        obtain ⟨header', hheader, rfl⟩ | hr := hr
        · obtain rfl := Option.some.inj (hreply.symm.trans hheader)
          have hij := h.inj i hg.lt j (h.inv.lt_of_items hts) (hg.yaddr.symm.trans (hy.trans hip.symm))
          exact absurd (hown hij) hne
        · have hheld' : Holds (step hash s call).1 client address time := by
            by_cases hij : i = j
            · obtain ⟨k, ts', h1, h2, h3, h4⟩ := hg.holds
              refine ⟨k, ts', h1, (hle call List.mem_cons_self).trans h2, h3.trans (hown hij), h4.trans ?_⟩
              rw [hg.yaddr, hij, hip]
            · obtain ⟨hitems, hkeys, hips⟩ := hg.other (Ne.symm hij)
              exact ⟨j, ts, hitems.trans hts, htime, hkeys.trans hkey, hips.trans hip⟩
          rw [← hcfg]
          exact held_respected (hg.good h) ht' hok.2 hsorted' hle' hheld' r hr hgr hy hne

/-- Of two replies, the later one respects the earlier one. -/
theorem replies_respect : ∀ {calls : List Call} {s : State}, Good hash s → (∀ call ∈ calls, call.time ≠ timeMax) →
    CallsOk hash s calls → calls.Pairwise (·.time ≤ ·.time) → (replies hash s calls).Pairwise Reply.Respects
  | [], _, _, _, _, _ => List.Pairwise.nil
  | call :: calls, s, h, ht, hok, hsorted => by
    have htc := ht call List.mem_cons_self
    have ht' : ∀ c ∈ calls, c.time ≠ timeMax := fun c hc => ht c (List.mem_cons_of_mem _ hc)
    obtain ⟨hafter, hsorted'⟩ := List.pairwise_cons.mp hsorted
    have hgood := step_good h htc hok.1
    rw [replies, List.pairwise_append]
    refine ⟨?_, replies_respect hgood ht' hok.2 hsorted', fun r hr r' hr' hack hgr hy hne => ?_⟩
    · cases (step hash s call).2 <;> simp
    · rw [Option.mem_toList, Option.map_eq_some_iff] at hr
      obtain ⟨header, hheader, rfl⟩ := hr
      obtain ⟨-, hrefuse⟩ | ⟨i, header', hreply, hg⟩ := step_cases h.inv htc hok.1
      · exact absurd (Or.inr hack) (hrefuse header hheader)
      · obtain rfl := Option.some.inj (hreply.symm.trans hheader)
        have hend := held_respected hgood ht' hok.2 hsorted' hafter hg.holds r' hr' hgr hy hne
        rw [step_config] at hend
        rw [Reply.leaseEnd, hg.lease]
        exact hend

end Runs

theorem CallsOk.of_prefix : ∀ {pre calls : List Call} {s : State}, pre <+: calls → CallsOk hash s calls →
    CallsOk hash s pre
  | [], _, _, _, _ => trivial
  | _ :: _, [], _, hp, _ => absurd hp.length_le (by simp)
  | c :: pre, c' :: calls, s, hp, hok => by
    obtain ⟨rfl, hp'⟩ := List.cons_prefix_cons.mp hp
    exact ⟨hok.1, CallsOk.of_prefix hp' hok.2⟩

/-- **Leases.** For a server that is ready with enough addresses for its connections, and calls at
non-decreasing times: if no new client is ever given an index whose lease in seconds still runs, then no
acknowledged address is granted to another client before the lease has ended, and at every moment an
address has one client at most and a client one address. -/
theorem dhcp_lease (hash : EtherAddr → UInt32) (items : ConfigItems) (s : State) (hinit : nfInit items = .ready s)
    (henough : EnoughAddresses s.config) (calls : List Call) (hsorted : calls.Pairwise (·.time ≤ ·.time))
    (htimes : ∀ call ∈ calls, call.time ≠ timeMax) (hok : CallsOk hash s calls) :
    (replies hash s calls).Pairwise Reply.Respects ∧ ∀ pre, pre <+: calls → Exclusive (run hash s pre) :=
  ⟨replies_respect (nfInit_good hinit henough) htimes hok hsorted, fun _ hpre =>
    (run_good (nfInit_good hinit henough) (fun call hc => htimes call (hpre.mem hc))
      (hok.of_prefix hash hpre)).exclusive⟩

/-- A message of a client whose address ends in a byte, that asks for 10.0.0.2. -/
def demoMessage (client : UInt8) : Header where
  op := 1
  yaddr := 0
  options := store32 (storeEtherAddr (fun _ => 0) 6 ⟨2, 0, 0, 0, 0, client⟩) 14 0x0A000002

/-- Client 1 gets its address; its lease ends at 3600 s and 1 ns, and then client 2 gets the address. -/
def laterCalls : List Call :=
  [⟨.discover, demoMessage 1, 0⟩, ⟨.request, demoMessage 1, 1⟩, ⟨.discover, demoMessage 2, 3600 * 10 ^ 9 + 1⟩,
    ⟨.request, demoMessage 2, 3600 * 10 ^ 9 + 2⟩]

def laterCallsOk : Bool :=
  match nfInit (demoItems 0xFFFFFFF8 1) with
  | .ready s => decide (CallsOk (fun _ => 0) s laterCalls)
  | _ => false

theorem laterCallsOk_eq : laterCallsOk = true := by decide

theorem dhcp_lease_later : ∃ s, nfInit (demoItems 0xFFFFFFF8 1) = .ready s ∧
    (replies (fun _ => 0) s laterCalls).Pairwise Reply.Respects ∧
      ∀ pre, pre <+: laterCalls → Exclusive (run (fun _ => 0) s pre) := by
  obtain ⟨s, hs, hcfg⟩ := @nfInit_isReady (demoItems 0xFFFFFFF8 1) (demoConfig 0xFFFFFFF8 1) rfl (by decide)
  have hok := laterCallsOk_eq
  rw [laterCallsOk, hs] at hok
  exact ⟨s, hs, dhcp_lease (fun _ => 0) _ s hs (by rw [hcfg]; exact Or.inl (by decide)) laterCalls
    (by decide) (by decide) (of_decide_eq_true hok)⟩

/-- Client 1 gets its address; client 2 asks for one 10 microseconds later. -/
def demoCalls : List Call :=
  [⟨.discover, demoMessage 1, 0⟩, ⟨.request, demoMessage 1, 1⟩, ⟨.discover, demoMessage 2, 10000⟩]

/-- The type, the address, the end of the lease, the client and the time of a reply. -/
def Reply.summary (r : Reply) : UInt8 × UInt32 × ℕ × EtherAddr × ℕ :=
  (messageTypeValue r.header.options, r.header.yaddr, r.leaseEnd, r.call.client, r.call.time)

/-- What `demoCalls` are answered with. -/
def demoReplies : List (UInt8 × UInt32 × ℕ × EtherAddr × ℕ) :=
  match nfInit (demoItems 0xFFFFFFF8 1) with
  | .ready s => (replies (fun _ => 0) s demoCalls).map Reply.summary
  | _ => []

theorem demoReplies_eq : demoReplies =
    [(DHCPOFFER, 0x0A000002, 3600 * 10 ^ 9, ⟨2, 0, 0, 0, 0, 1⟩, 0),
     (DHCPACK, 0x0A000002, 1 + 3600 * 10 ^ 9, ⟨2, 0, 0, 0, 0, 1⟩, 1),
     (DHCPOFFER, 0x0A000002, 10000 + 3600 * 10 ^ 9, ⟨2, 0, 0, 0, 0, 2⟩, 10000)] := by
  decide

/-- Client 2 is offered the address of client 1, whose lease runs for an hour. -/
theorem dhcp_lease_not : ¬ ∀ (hash : EtherAddr → UInt32) (items : ConfigItems) (s : State),
    nfInit items = .ready s → EnoughAddresses s.config → ∀ calls : List Call, calls.Pairwise (·.time ≤ ·.time) →
    (∀ call ∈ calls, call.time ≠ timeMax) → (replies hash s calls).Pairwise Reply.Respects := by
  intro h
  obtain ⟨s, hs, hcfg⟩ := @nfInit_isReady (demoItems 0xFFFFFFF8 1) (demoConfig 0xFFFFFFF8 1) rfl (by decide)
  have hrespect := h (fun _ => 0) _ s hs (by rw [hcfg]; exact Or.inl (by decide)) demoCalls (by decide) (by decide)
  have hreplies := demoReplies_eq
  rw [demoReplies, hs] at hreplies
  obtain ⟨r₀, rs, hrs, -, hreplies⟩ := List.map_eq_cons_iff.mp hreplies
  obtain ⟨r₁, rs, rfl, h₁, hreplies⟩ := List.map_eq_cons_iff.mp hreplies
  obtain ⟨r₂, rs, rfl, h₂, -⟩ := List.map_eq_cons_iff.mp hreplies
  simp only [Reply.summary, Prod.mk.injEq] at h₁ h₂
  obtain ⟨htype₁, haddr₁, hend₁, hclient₁, -⟩ := h₁
  obtain ⟨htype₂, haddr₂, -, hclient₂, htime₂⟩ := h₂
  rw [hrs] at hrespect
  have hle := (List.pairwise_cons.mp (List.pairwise_cons.mp hrespect).2).1 r₂ List.mem_cons_self htype₁ (Or.inl htype₂)
    (haddr₂.trans haddr₁.symm) (by rw [hclient₁, hclient₂]; decide)
  rw [hend₁, htime₂] at hle
  omega

end Dhcp
end Klint
