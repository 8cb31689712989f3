import RotorXdp.NicFilter
import RotorXdp.Wiring
import RotorXdp.Lib.Loop

/-!
# From the interfaces to the ports

`plumbing.h` and the part of `main` that calls it. Start-up loads one program on the NIC and one on
each outer veth, opens a socket for every port and enters the sockets into the maps of the programs.
From then on the kernel runs the program of an interface on every frame that it receives there; the
program passes the frame on, or redirects it to the socket that its map holds for the queue.

The host is what start-up meets: which interfaces there are and which calls succeed. The kernel
refuses a key beyond `MAX_SOCKS`. A second program on an interface is not refused, libxdp runs both;
so the frames are followed for interfaces that have an index each, `Host.Separate`.

* `startUp`: the plumbing part of `main`;
* `Plumbing.receive`: which socket a frame reaches;
* `Carries`, `sockProg_iff`: the frames that the program of the NIC redirects;
* `start_up_delivers`: the frames that reach a port.
-/

namespace RotorXdp

open Bytes Function Loops

/-! ### The programs -/

/-- `xdp_sock_prog` of `nic_kern.c`, for any protocol (`nic_kern_old.c` asks for UDP). -/
def sockProg (ipproto : ℕ) (xsksMap : ℕ → Bool) (rxQueueIndex : ℕ) (m : Mem) (data dataEnd : ℕ) :
    XdpAction :=
  match parseEthHdr m data dataEnd with
  | none => .pass
  | some (pos, ethType) =>
    if ethType = ethPIp then
      match parseIpHdr m pos dataEnd with
      | none => .pass
      | some (_, ipType) =>
        if ipType ≠ ipproto then .pass
        else if xsksMap rxQueueIndex then .redirect rxQueueIndex
        else .pass
    else .pass

theorem xdpSockProg_eq : xdpSockProg = sockProg ipprotoGre := rfl

/-- `xdp_sock_prog_0` of `veth_kern.c`, and `xdp_sock_prog` of `nic_kern_old2.c`. -/
def xdpSockProg0 (xsksMap : ℕ → Bool) (rxQueueIndex : ℕ) : XdpAction :=
  if xsksMap rxQueueIndex then .redirect rxQueueIndex else .pass

/-! ### Start-up -/

/-- `MAX_PORTS`, `MAX_SOCKS`, and the length of `cfgs` and of `xdp_prog`. -/
def maxPorts : ℕ := 12
def maxSocks : ℕ := 16
def nCfgs : ℕ := 26

/-- `struct config`: the fields that are read. -/
structure XdpConfig where
  ifindex : ℕ
  filename : String
  progsec : String
  deriving DecidableEq

/-- `struct bpf_map_info`: the fields that are read. -/
structure BpfMapInfo where
  name : String
  keySize : ℕ
  valueSize : ℕ

/-- The maps of a kernel program: the section `.maps` of its file. -/
def progMaps : List BpfMapInfo := [⟨"xsks_map", 4, 4⟩]

/-- What start-up meets. -/
structure Host where
  nicIface : String
  ifNametoindex : String → ℕ
  /-- `xdp_program__open_file` -/
  openOk : String → String → Bool
  /-- `xdp_program__attach` -/
  attachOk : ℕ → Bool
  /-- `port_init` -/
  portInitOk : ℕ → Bool
  /-- the calls of `lookup_bpf_map` about a program -/
  progInfoOk : ℕ → Bool
  /-- `bpf_map_get_fd_by_id` and `bpf_obj_get_info_by_fd` for a map of a program -/
  mapFdOk : ℕ → ℕ → Bool
  mapInfoOk : ℕ → ℕ → Bool

/-- How start-up ends early. -/
inductive StartError
  | exitFailure
  | fault (e : Fault)
  deriving DecidableEq

/-- The arrays of start-up, and what the kernel has been told. -/
structure Plumbing where
  cfgs : ℕ → Option XdpConfig
  /-- `xdp_prog`: the file and the section that entry was opened from -/
  xdpProg : ℕ → Option (String × String)
  /-- the entry of `xdp_prog` whose program was put on the interface last -/
  attached : ℕ → Option ℕ
  /-- the map of each program: the port whose socket is entered -/
  xsksMap : ℕ → ℕ → Option ℕ

def Plumbing.zero : Plumbing := ⟨fun _ => none, fun _ => none, fun _ => none, fun _ _ => none⟩

/-- The configurations that `load_xdp_program` fills in. -/
def nicCfg (H : Host) : XdpConfig := ⟨H.ifNametoindex H.nicIface, "nic_kern.o", "xdp_sock_1"⟩
def vethCfg (H : Host) (name : String) : XdpConfig :=
  ⟨H.ifNametoindex name, "veth_kern.o", "xdp_sock_0"⟩

/-- `cfgs[y] = nic_cfg`. -/
def setNicCfg (H : Host) (y : ℕ) (s : Plumbing) : Except StartError Plumbing :=
  if y < nCfgs then .ok { s with cfgs := update s.cfgs y (some (nicCfg H)) }
  else .error (.fault .outOfBounds)

/-- `cfgs[x] = veth_cfg`, with `x = n_nic_ports + z`. -/
def setVethCfg (H : Host) (n z : ℕ) (s : Plumbing) : Except StartError Plumbing :=
  match outVethArr[z]? with
  | none => .error (.fault .outOfBounds)
  | some name =>
    if n + z < nCfgs then .ok { s with cfgs := update s.cfgs (n + z) (some (vethCfg H name)) }
    else .error (.fault .outOfBounds)

/-- Open and attach `xdp_prog[i]`. A fresh program has an empty map. -/
def openAndAttach (H : Host) (i : ℕ) (s : Plumbing) : Except StartError Plumbing :=
  match s.cfgs i with
  | none => .error (.fault .uninit)
  | some cfg =>
    if H.openOk cfg.filename cfg.progsec then
      if H.attachOk cfg.ifindex then
        .ok { s with
          xdpProg := update s.xdpProg i (some (cfg.filename, cfg.progsec))
          attached := update s.attached cfg.ifindex (some i)
          xsksMap := update s.xsksMap i fun _ => none }
      else .error .exitFailure
    else .error .exitFailure

/-- `load_xdp_program`. -/
def loadXdpProgram (H : Host) (n v : ℕ) (s : Plumbing) : Except StartError Plumbing :=
  match forLoopM n (setNicCfg H) s with
  | .error e => .error e
  | .ok s =>
    match forLoopM v (setVethCfg H n) s with
    | .error e => .error e
    | .ok s =>
      match openAndAttach H 0 s with
      | .error e => .error e
      | .ok s => forLoopM v (fun j => openAndAttach H (n + j)) s

/-- `lookup_bpf_map`: the map that is found, and the maps whose descriptors are closed again. -/
def lookupBpfMap (fdOk : ℕ → Bool) (info : ℕ → Option BpfMapInfo) : List ℕ → Option ℕ × List ℕ
  | [] => (none, [])
  | id :: ids =>
    let (found, closed) := lookupBpfMap fdOk info ids
    if fdOk id then
      match info id with
      | none => (found, id :: closed)
      | some i =>
        if i.name = "xsks_map" ∧ i.keySize = 4 ∧ i.valueSize = 4 then (some id, [])
        else (found, id :: closed)
    else (found, closed)

/-- The lookup for `xdp_prog[i]`. -/
def Host.lookup (H : Host) (i : ℕ) : Option ℕ :=
  if H.progInfoOk i then
    (lookupBpfMap (H.mapFdOk i) (fun k => if H.mapInfoOk i k then progMaps[k]? else none)
      (List.range progMaps.length)).1
  else none

/-- `bpf_map_update_elem` on the map of program `i`, with the socket of port `p`. -/
def mapUpdate (i key p : ℕ) (s : Plumbing) : Except StartError Plumbing :=
  if key < maxSocks then
    .ok { s with xsksMap := update s.xsksMap i (update (s.xsksMap i) key (some p)) }
  else .error .exitFailure

/-- `enter_xsks_into_map_for_nic`. -/
def enterXsksIntoMapForNic (H : Host) (n : ℕ) (s : Plumbing) : Except StartError Plumbing :=
  match H.lookup 0 with
  | none => .error .exitFailure
  | some _ => forLoopM n (fun y => mapUpdate 0 y y) s

/-- `enter_xsks_into_map`. -/
def enterXsksIntoMap (H : Host) (index : ℕ) (s : Plumbing) : Except StartError Plumbing :=
  match H.lookup index with
  | none => .error .exitFailure
  | some _ => mapUpdate index 0 index s

/-- The plumbing part of `main`, with `n` NIC queues and `v` namespaces. -/
def startUp (H : Host) (n v : ℕ) : Except StartError Plumbing :=
  if maxPorts < n + v then .error (.fault .outOfBounds)
  else
    match loadXdpProgram H n v .zero with
    | .error e => .error e
    | .ok s =>
      if (List.range (n + v)).all H.portInitOk then
        match enterXsksIntoMapForNic H n s with
        | .error e => .error e
        | .ok s => forLoopM v (fun j => enterXsksIntoMap H (n + j)) s
      else .error .exitFailure

/-- `port_params[x].iface_queue` for all ports. -/
def ifaceQueues (n v : ℕ) : ℕ → ℕ :=
  let nic := forLoop n (fun y queue => update queue y y) fun _ => 0
  forLoop v (fun j queue => update queue (n + j) 0) nic

/-- The interface and the queue that the socket of a port is bound to. -/
def Host.bound (H : Host) (n v p : ℕ) : Option (ℕ × ℕ) :=
  (ifaces H.nicIface n v p).map fun name => (H.ifNametoindex name, ifaceQueues n v p)

/-- The NIC and the outer veths have an index each. -/
def Host.Separate (H : Host) (v : ℕ) : Prop :=
  ((H.nicIface :: outVethArr.take v).map H.ifNametoindex).Nodup

instance (H : Host) (v : ℕ) : Decidable (H.Separate v) :=
  inferInstanceAs (Decidable (List.Nodup _))

theorem Host.Separate.ne_nic {H : Host} {v j : ℕ} {name : String} (h : H.Separate v) (hj : j < v)
    (hname : outVethArr[j]? = some name) : H.ifNametoindex name ≠ H.ifNametoindex H.nicIface := by
  rw [Host.Separate, List.map_cons, List.nodup_cons] at h
  intro heq
  refine h.1 (heq ▸ List.mem_map_of_mem (List.mem_of_getElem? (i := j) ?_))
  rwa [List.getElem?_take_of_lt hj]

theorem Host.Separate.veth_inj {H : Host} {v i j : ℕ} {a b : String} (h : H.Separate v)
    (hi : i < v) (hj : j < v) (ha : outVethArr[i]? = some a) (hb : outVethArr[j]? = some b)
    (heq : H.ifNametoindex a = H.ifNametoindex b) : i = j := by
  rw [Host.Separate, List.map_cons, List.nodup_cons] at h
  have hget {k : ℕ} {c : String} (hk : k < v) (hc : outVethArr[k]? = some c) :
      ((outVethArr.take v).map H.ifNametoindex)[k]? = some (H.ifNametoindex c) := by
    rw [List.getElem?_map, List.getElem?_take_of_lt hk, hc, Option.map_some]
  have hlt := (List.getElem?_eq_some_iff.1 (hget hi ha)).1
  exact (List.getElem?_inj hlt h.2).1 ((hget hi ha).trans (heq ▸ (hget hj hb).symm))

/-! ### Receiving -/

/-- The program in the file. -/
def runProg (filename : String) (xsksMap : ℕ → Bool) (rxQueueIndex : ℕ) (m : Mem)
    (data dataEnd : ℕ) : XdpAction :=
  if filename = "nic_kern.o" then xdpSockProg xsksMap rxQueueIndex m data dataEnd
  else xdpSockProg0 xsksMap rxQueueIndex

/-- The port whose socket a frame is redirected to; the kernel drops it if the socket is bound
elsewhere. -/
def Plumbing.receive (s : Plumbing) (bound : ℕ → Option (ℕ × ℕ)) (ifindex queue : ℕ) (m : Mem)
    (data dataEnd : ℕ) : Option ℕ :=
  match s.attached ifindex with
  | none => none
  | some i =>
    match s.xdpProg i with
    | none => none
    | some (filename, _) =>
      match runProg filename (fun q => (s.xsksMap i q).isSome) queue m data dataEnd with
      | .pass => none
      | .redirect q => (s.xsksMap i q).filter fun p => bound p = some (ifindex, queue)

/-! ### The frames that are redirected -/

/-- An IPv4 header of the length that it says. -/
structure Ipv4Header where
  bytes : List UInt8
  min_len : iphdrLen ≤ bytes.length
  ihl_eq : (bytes.getD 0 0).toNat % 16 * 4 = bytes.length

def Ipv4Header.protocol (h : Ipv4Header) : ℕ := (h.bytes.getD 9 0).toNat

/-- An Ethernet frame without tags that carries an IPv4 packet of a protocol. -/
def Carries (ipproto : ℕ) (bs : List UInt8) : Prop :=
  ∃ addrs payload, ∃ ip : Ipv4Header, addrs.length = 12 ∧
    bs = addrs ++ (be16Bytes ethPIp ++ (ip.bytes ++ payload)) ∧ ip.protocol = ipproto

section Frames

variable {m : Mem} {data len queue r ipproto : ℕ} {xsksMap : ℕ → Bool}

theorem getD_load (m : Mem) (a : ℕ) {n i : ℕ} (h : i < n) : (load m a n).getD i 0 = m (a + i) := by
  have hlen : i < (load m a n).length := by rwa [load_length]
  rw [List.getD_eq_getElem?_getD, List.getElem?_eq_getElem hlen, Option.getD_some, getElem_load]

theorem parseIpHdr_eq_some {pos dataEnd : ℕ} {x : ℕ × ℕ} : parseIpHdr m pos dataEnd = some x ↔
    iphdrLen ≤ ipIhl m pos * 4 ∧ pos + ipIhl m pos * 4 ≤ dataEnd ∧
      x = (pos + ipIhl m pos * 4, ipProtocol m pos) := by
  unfold parseIpHdr
  simp only
  constructor
  · intro h
    split_ifs at h with h1 h2 h3
    exact ⟨Nat.le_of_not_lt h2, Nat.le_of_not_lt h3, (Option.some.inj h).symm⟩
  · rintro ⟨hmin, hfits, rfl⟩
    rw [if_neg (by omega), if_neg (by omega), if_neg (by omega)]

/-- The checks of the program. -/
theorem sockProg_checks : sockProg ipproto xsksMap queue m data (data + len) = .redirect r ↔
    r = queue ∧ xsksMap queue = true ∧ hProto m data = ethPIp ∧
      iphdrLen ≤ ipIhl m (data + ethHlen) * 4 ∧
      ethHlen + ipIhl m (data + ethHlen) * 4 ≤ len ∧
      ipProtocol m (data + ethHlen) = ipproto := by
  unfold sockProg parseEthHdr
  by_cases heth : data + len < data + ethHlen
  · rw [if_pos heth]
    exact iff_of_false (by simp) (by omega)
  rw [if_neg heth]
  simp only
  by_cases htype : hProto m data = ethPIp
  swap
  · rw [if_neg htype]
    exact iff_of_false (by simp) (fun h => htype h.2.2.1)
  rw [if_pos htype]
  cases hip : parseIpHdr m (data + ethHlen) (data + len) with
  | none =>
    refine iff_of_false (by simp) fun h => ?_
    have hsome := parseIpHdr_eq_some.2
      ⟨h.2.2.2.1, (by omega : data + ethHlen + _ ≤ data + len), rfl⟩
    rw [hip] at hsome
    cases hsome
  | some x =>
    obtain ⟨hmin, hfits, rfl⟩ := parseIpHdr_eq_some.1 hip
    simp only
    by_cases hproto : ipProtocol m (data + ethHlen) = ipproto
    swap
    · rw [if_pos hproto]
      exact iff_of_false (by simp) (fun h => hproto h.2.2.2.2.2)
    rw [if_neg (not_not.2 hproto)]
    cases hmap : xsksMap queue with
    | false => exact iff_of_false (by simp) (by simp)
    | true =>
      rw [if_pos rfl, XdpAction.redirect.injEq]
      exact ⟨fun h => ⟨h.symm, rfl, htype, hmin, by omega, hproto⟩, fun h => h.1.symm⟩

/-- **The frames that the program of the NIC redirects**: untagged IPv4 frames of its protocol,
received on a queue that has a socket. -/
theorem sockProg_iff : sockProg ipproto xsksMap queue m data (data + len) = .redirect r ↔
    r = queue ∧ xsksMap queue = true ∧ Carries ipproto (load m data len) := by
  have heth : ethHlen = 14 := rfl
  have hip : iphdrLen = 20 := rfl
  rw [sockProg_checks]
  refine and_congr_right fun _ => and_congr_right fun _ => ?_
  constructor
  · rintro ⟨htype, hihl, hfits, hproto⟩
    have hsplit : load m data len = load m data 12 ++ (load m (data + 12) 2 ++
        (load m (data + 12 + 2) (ipIhl m (data + ethHlen) * 4) ++
          load m (data + 12 + 2 + ipIhl m (data + ethHlen) * 4)
            (len - 14 - ipIhl m (data + ethHlen) * 4))) := by
      rw [← load_add, ← load_add, ← load_add]
      congr 1
      omega
    have hfirst : (load m (data + 12 + 2) (ipIhl m (data + ethHlen) * 4)).getD 0 0 =
        m (data + ethHlen) := getD_load _ _ (by omega)
    have hninth : (load m (data + 12 + 2) (ipIhl m (data + ethHlen) * 4)).getD 9 0 =
        m (data + ethHlen + 9) := getD_load _ _ (by omega)
    refine ⟨load m data 12, load m (data + 12 + 2 + ipIhl m (data + ethHlen) * 4)
        (len - 14 - ipIhl m (data + ethHlen) * 4),
      ⟨load m (data + 12 + 2) (ipIhl m (data + ethHlen) * 4), ?_, ?_⟩, load_length _ _ _, ?_, ?_⟩
    · rw [load_length]
      exact hihl
    · rw [load_length, hfirst]
      rfl
    · rw [hsplit, load_two, show be16 m (data + 12) = ethPIp from htype]
    · rw [Ipv4Header.protocol, hninth]
      exact hproto
  · rintro ⟨addrs, payload, ip, haddrs, hbytes, hproto⟩
    have hlen := congrArg List.length hbytes
    simp only [load_length, List.length_append, haddrs, length_be16Bytes] at hlen
    have hload : load m data (addrs ++ (be16Bytes ethPIp ++ (ip.bytes ++ payload))).length =
        addrs ++ (be16Bytes ethPIp ++ (ip.bytes ++ payload)) := by
      rw [← hbytes, load_length]
    obtain ⟨-, hload⟩ := load_append hload
    obtain ⟨htype, hload⟩ := load_append hload
    obtain ⟨hip, -⟩ := load_append hload
    rw [haddrs] at htype
    rw [haddrs, length_be16Bytes] at hip
    have hmin := ip.min_len
    have hihl : ipIhl m (data + ethHlen) * 4 = ip.bytes.length := by
      have hfirst := getD_load m (data + 12 + 2) (show 0 < ip.bytes.length by omega)
      rw [hip] at hfirst
      rw [← ip.ihl_eq, hfirst]
      rfl
    refine ⟨be16_of_load (by decide) htype, by omega, by omega, ?_⟩
    have hninth := getD_load m (data + 12 + 2) (show 9 < ip.bytes.length by omega)
    rw [hip] at hninth
    rw [← hproto, Ipv4Header.protocol, hninth]
    rfl

end Frames

/-! ### What start-up leaves -/

section StartUp

variable {H : Host} {n v k a i : ℕ} {s t : Plumbing}

theorem openAndAttach_eq_ok (h : openAndAttach H i s = .ok t) :
    ∃ cfg, s.cfgs i = some cfg ∧
      t = { s with
        xdpProg := update s.xdpProg i (some (cfg.filename, cfg.progsec))
        attached := update s.attached cfg.ifindex (some i)
        xsksMap := update s.xsksMap i fun _ => none } := by
  unfold openAndAttach at h
  split at h
  · cases h
  · rename_i cfg hcfg
    split_ifs at h with hopen hattach
    exact ⟨cfg, hcfg, (Except.ok.inj h).symm⟩

theorem mapUpdate_eq_ok {key p : ℕ} (h : mapUpdate i key p s = .ok t) :
    t = { s with xsksMap := update s.xsksMap i (update (s.xsksMap i) key (some p)) } := by
  unfold mapUpdate at h
  split_ifs at h
  exact (Except.ok.inj h).symm

theorem ifaceQueues_eq (n v p : ℕ) : ifaceQueues n v p = if p < n then p else 0 := by
  have hnic : forLoop n (fun y queue => update queue y y) (fun _ => 0) =
      filled (fun _ => 0) (fun y => y) 0 n :=
    forLoop_invariant (fun k s => s = filled (fun _ => 0) (fun y => y) 0 k) rfl (by
      rintro k _ - rfl
      have h := update_filled (fun _ => 0) (fun y => y) 0 k
      rwa [Nat.zero_add] at h)
  have hveth : forLoop v (fun j queue => update queue (n + j) 0)
      (filled (fun _ => 0) (fun y => y) 0 n) = fun p => if p < n then p else 0 := by
    refine forLoop_invariant (fun _ s => s = fun p => if p < n then p else 0) ?_ ?_
    · funext p
      rw [filled, Nat.zero_add]
    · rintro j _ - rfl
      funext p
      by_cases hp : p = n + j
      · subst hp
        rw [update_self, if_neg (by omega)]
      · rw [update_of_ne hp]
  rw [ifaceQueues, hnic, hveth]

/-- The interface and the queue of a port. -/
theorem bound_eq_some {p ix queue : ℕ} : H.bound n v p = some (ix, queue) ↔
    (p < n ∧ ix = H.ifNametoindex H.nicIface ∧ queue = p) ∨
      ∃ j < v, ∃ name, p = n + j ∧ outVethArr[j]? = some name ∧ ix = H.ifNametoindex name ∧
        queue = 0 := by
  unfold Host.bound
  rw [ifaces_eq, ifaceQueues_eq]
  by_cases hp : p < n
  · rw [if_pos hp, if_pos hp, Option.map_some, Option.some.injEq, Prod.mk.injEq]
    constructor
    · rintro ⟨rfl, rfl⟩
      exact .inl ⟨hp, rfl, rfl⟩
    · rintro (⟨-, rfl, rfl⟩ | ⟨j, hj, name, rfl, -⟩)
      · exact ⟨rfl, rfl⟩
      · omega
  · rw [if_neg hp, if_neg hp, Option.map_eq_some_iff]
    constructor
    · rintro ⟨name, hname, heq⟩
      rw [Prod.mk.injEq] at heq
      split_ifs at hname with hpv
      exact .inr ⟨p - n, by omega, name, by omega, hname, heq.1.symm, heq.2.symm⟩
    · rintro (⟨hlt, -⟩ | ⟨j, hj, name, rfl, hname, rfl, rfl⟩)
      · exact absurd hlt hp
      · refine ⟨name, ?_, rfl⟩
        rw [if_pos (by omega), Nat.add_sub_cancel_left]
        exact hname

/-- The configurations of the NIC and of `k` veths. -/
structure CfgsSet (H : Host) (n k : ℕ) (s : Plumbing) : Prop where
  nic : ∀ y < n, s.cfgs y = some (nicCfg H)
  veth : ∀ j < k, ∃ name, outVethArr[j]? = some name ∧ s.cfgs (n + j) = some (vethCfg H name)
  rest : ∀ i, n + k ≤ i → s.cfgs i = none

/-- The programs of the NIC and of `k` veths, each on its interface. -/
structure Attached (H : Host) (n k : ℕ) (s : Plumbing) : Prop where
  nic : 0 < n → s.xdpProg 0 = some ((nicCfg H).filename, (nicCfg H).progsec)
  veth : ∀ j < k, s.xdpProg (n + j) = some ("veth_kern.o", "xdp_sock_0")
  attached : ∀ ix i, s.attached ix = some i ↔
    (0 < n ∧ i = 0 ∧ ix = H.ifNametoindex H.nicIface) ∨
      ∃ j < k, ∃ name, i = n + j ∧ outVethArr[j]? = some name ∧ ix = H.ifNametoindex name

/-- The sockets of `a` NIC queues and of `k` veths are in the maps. -/
structure Entered (n v a k : ℕ) (s : Plumbing) : Prop where
  nic : 0 < n → ∀ queue p, s.xsksMap 0 queue = some p ↔ queue < a ∧ p = queue
  veth : ∀ j < v, ∀ queue p, s.xsksMap (n + j) queue = some p ↔ j < k ∧ queue = 0 ∧ p = n + j

/-- The loops of `load_xdp_program` that fill in the configurations. -/
theorem cfgsSet {s₁ s₂ : Plumbing} (h₁ : forLoopM n (setNicCfg H) .zero = .ok s₁)
    (h₂ : forLoopM v (setVethCfg H n) s₁ = .ok s₂) :
    CfgsSet H n v s₂ ∧ s₂.attached = (fun _ => none) ∧ ∀ i, s₂.xsksMap i = fun _ => none := by
  have hnic : ((∀ y < n, s₁.cfgs y = some (nicCfg H)) ∧ ∀ i, n ≤ i → s₁.cfgs i = none) ∧
      s₁.attached = (fun _ => none) ∧ ∀ i, s₁.xsksMap i = fun _ => none := by
    refine forLoopM_invariant (fun k s => ((∀ y < k, s.cfgs y = some (nicCfg H)) ∧
      ∀ i, k ≤ i → s.cfgs i = none) ∧ s.attached = (fun _ => none) ∧
      ∀ i, s.xsksMap i = fun _ => none) h₁ ?_ ?_
    · exact ⟨⟨fun y hy => absurd hy (Nat.not_lt_zero y), fun i _ => rfl⟩, rfl, fun i => rfl⟩
    · rintro y s t - ⟨⟨hset, hrest⟩, hat, hmap⟩ hs
      unfold setNicCfg at hs
      split_ifs at hs
      cases hs
      refine ⟨⟨fun z hz => ?_, fun i hi => ?_⟩, hat, hmap⟩
      · by_cases hzy : z = y
        · subst hzy
          exact update_self ..
        · exact (update_of_ne hzy ..).trans (hset z (by omega))
      · exact (update_of_ne (by omega) ..).trans (hrest i (by omega))
  refine forLoopM_invariant (fun k s => CfgsSet H n k s ∧ s.attached = (fun _ => none) ∧
    ∀ i, s.xsksMap i = fun _ => none) h₂ ?_ ?_
  · exact ⟨⟨hnic.1.1, fun j hj => absurd hj (Nat.not_lt_zero j), hnic.1.2⟩, hnic.2⟩
  · rintro z s t - ⟨hset, hat, hmap⟩ hs
    unfold setVethCfg at hs
    split at hs
    · cases hs
    rename_i name hname
    split_ifs at hs
    cases hs
    refine ⟨⟨fun y hy => ?_, fun j hj => ?_, fun i hi => ?_⟩, hat, hmap⟩
    · exact (update_of_ne (by omega) ..).trans (hset.nic y hy)
    · by_cases hjz : j = z
      · subst hjz
        exact ⟨name, hname, update_self ..⟩
      · obtain ⟨name', hname', hcfg⟩ := hset.veth j (by omega)
        exact ⟨name', hname', (update_of_ne (by omega) ..).trans hcfg⟩
    · exact (update_of_ne (by omega) ..).trans (hset.rest i (by omega))

theorem Attached.empty (hat : s.attached = fun _ => none) : Attached H 0 0 s where
  nic hn := absurd hn (Nat.lt_irrefl 0)
  veth j hj := absurd hj (Nat.not_lt_zero j)
  attached ix i := by
    rw [hat]
    refine iff_of_false (by simp) ?_
    rintro (⟨hn, -⟩ | ⟨j, hj, -⟩)
    · exact absurd hn (Nat.lt_irrefl 0)
    · exact absurd hj (Nat.not_lt_zero j)

/-- The first program is on the NIC. -/
theorem Attached.first (hn : 0 < n) (hat : s.attached = fun _ => none) :
    Attached H n 0 { s with
      xdpProg := update s.xdpProg 0 (some ((nicCfg H).filename, (nicCfg H).progsec))
      attached := update s.attached (nicCfg H).ifindex (some 0)
      xsksMap := update s.xsksMap 0 fun _ => none } where
  nic _ := by simp only [update_self]
  veth j hj := absurd hj (Nat.not_lt_zero j)
  attached ix i := by
    simp only [hat]
    by_cases hix : ix = (nicCfg H).ifindex
    · subst hix
      rw [update_self, Option.some.injEq]
      constructor
      · rintro rfl
        exact .inl ⟨hn, rfl, rfl⟩
      · rintro (⟨-, rfl, -⟩ | ⟨j, hj, -⟩)
        · rfl
        · exact absurd hj (Nat.not_lt_zero j)
    · rw [update_of_ne hix]
      refine iff_of_false (by simp) ?_
      rintro (⟨-, -, rfl⟩ | ⟨j, hj, -⟩)
      · exact hix rfl
      · exact absurd hj (Nat.not_lt_zero j)

/-- The program of the next veth is on it, or that of an earlier one once more. -/
theorem Attached.next {j : ℕ} {name : String} (h : Attached H n k s) (hsep : H.Separate v)
    (hk : k ≤ v) (hj : j ≤ k) (hjv : j < v) (hname : outVethArr[j]? = some name) :
    Attached H n (max k (j + 1)) { s with
      xdpProg :=
        update s.xdpProg (n + j) (some ((vethCfg H name).filename, (vethCfg H name).progsec))
      attached := update s.attached (vethCfg H name).ifindex (some (n + j))
      xsksMap := update s.xsksMap (n + j) fun _ => none } where
  nic hn := (update_of_ne (by omega) ..).trans (h.nic hn)
  veth i hi := by
    by_cases hij : i = j
    · subst hij
      exact update_self ..
    · exact (update_of_ne (by omega) ..).trans (h.veth i (by omega))
  attached ix i := by
    simp only
    by_cases hix : ix = (vethCfg H name).ifindex
    · subst hix
      rw [update_self, Option.some.injEq]
      constructor
      · rintro rfl
        exact .inr ⟨j, by omega, name, rfl, hname, rfl⟩
      · rintro (⟨-, -, hnic⟩ | ⟨j', hj', name', rfl, hname', hifx⟩)
        · exact absurd hnic (hsep.ne_nic hjv hname)
        · rw [hsep.veth_inj hjv (by omega) hname hname' hifx]
    · rw [update_of_ne hix, h.attached ix i]
      refine or_congr_right ⟨?_, ?_⟩
      · rintro ⟨j', hj', hrest⟩
        exact ⟨j', by omega, hrest⟩
      · rintro ⟨j', hj', name', rfl, hname', rfl⟩
        have hne : j' ≠ j := by
          rintro rfl
          rw [hname, Option.some.injEq] at hname'
          subst hname'
          exact hix rfl
        exact ⟨j', by omega, name', rfl, hname', rfl⟩

/-- After `load_xdp_program` every program is on its interface, and its map is empty. -/
theorem attached_of_load (hsep : H.Separate v) (h : loadXdpProgram H n v .zero = .ok s) :
    Attached H n v s ∧ ∀ i, s.xsksMap i = fun _ => none := by
  unfold loadXdpProgram at h
  split at h
  · cases h
  rename_i s₁ h₁
  split at h
  · cases h
  rename_i s₂ h₂
  obtain ⟨hcfgs, hat, hmap⟩ := cfgsSet h₁ h₂
  split at h
  · cases h
  rename_i s₃ h₃
  obtain ⟨cfg, hcfg, rfl⟩ := openAndAttach_eq_ok h₃
  have hmap₃ (i : ℕ) : update s₂.xsksMap 0 (fun _ => none) i = fun _ => none := by
    by_cases hi : i = 0
    · rw [hi, update_self]
    · rw [update_of_ne hi, hmap i]
  have hbase : ∃ b ≤ v, Attached H n b { s₂ with
      xdpProg := update s₂.xdpProg 0 (some (cfg.filename, cfg.progsec))
      attached := update s₂.attached cfg.ifindex (some 0)
      xsksMap := update s₂.xsksMap 0 fun _ => none } := by
    rcases Nat.eq_zero_or_pos n with rfl | hn
    swap
    · obtain rfl : cfg = nicCfg H := Option.some.inj (hcfg.symm.trans (hcfgs.nic 0 hn))
      exact ⟨0, Nat.zero_le v, .first hn hat⟩
    -- without a NIC queue entry 0 is the first veth, and the loop attaches it again
    rcases Nat.eq_zero_or_pos v with rfl | hv
    · rw [hcfgs.rest 0 (Nat.le_refl 0)] at hcfg
      cases hcfg
    · obtain ⟨name, hname, hset⟩ := hcfgs.veth 0 hv
      obtain rfl : cfg = vethCfg H name := Option.some.inj (hcfg.symm.trans hset)
      exact ⟨1, hv, (Attached.empty hat).next hsep (Nat.zero_le v) (Nat.le_refl 0) hv hname⟩
  have hloop := forLoopM_invariant (fun k s => s.cfgs = s₂.cfgs ∧
    (∃ b ≤ v, k ≤ b ∧ Attached H n b s) ∧ ∀ i, s.xsksMap i = fun _ => none) h ?_ ?_
  · obtain ⟨-, ⟨b, hbv, hvb, hatt⟩, hmap'⟩ := hloop
    obtain rfl := Nat.le_antisymm hbv hvb
    exact ⟨hatt, hmap'⟩
  · obtain ⟨b, hbv, hatt⟩ := hbase
    exact ⟨rfl, ⟨b, hbv, Nat.zero_le b, hatt⟩, hmap₃⟩
  · rintro j s t hj ⟨hcfg', ⟨b, hbv, hjb, hatt⟩, hmap'⟩ hs
    obtain ⟨cfg, hcfgj, rfl⟩ := openAndAttach_eq_ok hs
    obtain ⟨name, hname, hset⟩ := hcfgs.veth j hj
    obtain rfl : cfg = vethCfg H name := by
      rw [hcfg', hset] at hcfgj
      exact (Option.some.inj hcfgj).symm
    refine ⟨hcfg', ⟨max b (j + 1), by omega, by omega, hatt.next hsep hbv hjb hj hname⟩,
      fun i => ?_⟩
    by_cases hi : i = n + j
    · simp only [hi, update_self]
    · simp only [update_of_ne hi, hmap' i]

/-- **What start-up leaves.** -/
theorem startUp_spec (hsep : H.Separate v) (h : startUp H n v = .ok s) :
    n + v ≤ maxPorts ∧ Attached H n v s ∧ Entered n v n v s := by
  unfold startUp at h
  split_ifs at h with hports hinit
  swap
  · split at h <;> cases h
  split at h
  · cases h
  rename_i s₁ h₁
  obtain ⟨hatt, hmap⟩ := attached_of_load hsep h₁
  split at h
  · cases h
  rename_i s₂ h₂
  have hnic : Attached H n v s₂ ∧ Entered n v n 0 s₂ := by
    unfold enterXsksIntoMapForNic at h₂
    split at h₂
    · cases h₂
    refine forLoopM_invariant (fun a s => Attached H n v s ∧ Entered n v a 0 s) h₂
      ⟨hatt, fun _ q p => ?_, fun j hj q p => ?_⟩ ?_
    · rw [hmap]
      exact iff_of_false (by simp) (by omega)
    · rw [hmap]
      exact iff_of_false (by simp) (by omega)
    · rintro y s t hy ⟨hatt, hent⟩ hs
      obtain rfl := mapUpdate_eq_ok hs
      refine ⟨⟨hatt.nic, hatt.veth, hatt.attached⟩, fun hn q p => ?_, fun j hj q p => ?_⟩
      · simp only [update_self]
        by_cases hq : q = y
        · subst hq
          rw [update_self, Option.some.injEq]
          omega
        · rw [update_of_ne hq, hent.nic hn]
          omega
      · rw [← hent.veth j hj]
        simp only [update_of_ne (show n + j ≠ 0 by omega)]
  have hall := forLoopM_invariant (fun k s => Attached H n v s ∧ Entered n v n k s) h hnic ?_
  · exact ⟨Nat.le_of_not_lt hports, hall⟩
  · rintro j s t hj ⟨hatt, hent⟩ hs
    unfold enterXsksIntoMap at hs
    split at hs
    · cases hs
    obtain rfl := mapUpdate_eq_ok hs
    refine ⟨⟨hatt.nic, hatt.veth, hatt.attached⟩, fun hn q p => ?_, fun i hi q p => ?_⟩
    · rw [← hent.nic hn]
      simp only [update_of_ne (show 0 ≠ n + j by omega)]
    · simp only
      by_cases hij : i = j
      · subst hij
        rw [update_self]
        by_cases hq : q = 0
        · subst hq
          rw [update_self, Option.some.injEq]
          omega
        · rw [update_of_ne hq, hent.veth i hi]
          omega
      · rw [update_of_ne (by omega), hent.veth i hi]
        omega

theorem runProg_nic (H : Host) (xsksMap : ℕ → Bool) (queue : ℕ) (m : Mem) (data dataEnd : ℕ) :
    runProg (nicCfg H).filename xsksMap queue m data dataEnd =
      sockProg ipprotoGre xsksMap queue m data dataEnd := by
  rw [runProg, if_pos (show (nicCfg H).filename = "nic_kern.o" from rfl), xdpSockProg_eq]

/-- **After start-up every port gets the frames of its own queue**: those that arrive on the
interface and the queue its socket is bound to, for a port of the NIC the untagged IPv4 frames that
carry GRE, and no others. -/
theorem start_up_delivers (hsep : H.Separate v) (h : startUp H n v = .ok s) (ifindex queue : ℕ)
    (m : Mem) (data len p : ℕ) :
    s.receive (H.bound n v) ifindex queue m data (data + len) = some p ↔
      H.bound n v p = some (ifindex, queue) ∧
        (p < n → Carries ipprotoGre (load m data len)) := by
  obtain ⟨-, hatt, hent⟩ := startUp_spec hsep h
  constructor
  · intro hp
    unfold Plumbing.receive at hp
    split at hp
    · cases hp
    rename_i i hi
    split at hp
    · cases hp
    rename_i filename progsec hprog
    split at hp
    · cases hp
    rename_i q hrun
    obtain ⟨hmap, hbound⟩ := Option.filter_eq_some_iff.1 hp
    refine ⟨of_decide_eq_true hbound, fun hpn => ?_⟩
    have hn : 0 < n := by omega
    have hzero : i = 0 := by
      rcases (hatt.attached ifindex i).1 hi with ⟨-, rfl, -⟩ | ⟨j, hj, name, rfl, -⟩
      · rfl
      · have := ((hent.veth j hj q p).1 hmap).2.2
        omega
    subst hzero
    obtain ⟨rfl, -⟩ := Prod.mk.inj (Option.some.inj (hprog.symm.trans (hatt.nic hn)))
    rw [runProg_nic] at hrun
    exact (sockProg_iff.1 hrun).2.2
  · rintro ⟨hbound, hcarries⟩
    rcases bound_eq_some.1 hbound with ⟨hp, hix, rfl⟩ | ⟨j, hj, name, rfl, hname, hix, rfl⟩
    · have hn : 0 < n := by omega
      have hmap : s.xsksMap 0 queue = some queue := (hent.nic hn queue queue).2 ⟨hp, rfl⟩
      have hrun : runProg (nicCfg H).filename (fun q => (s.xsksMap 0 q).isSome) queue m data
          (data + len) = .redirect queue := by
        rw [runProg_nic, sockProg_iff, hmap]
        exact ⟨rfl, rfl, hcarries hp⟩
      unfold Plumbing.receive
      rw [(hatt.attached ifindex 0).2 (.inl ⟨hn, rfl, hix⟩)]
      simp only [hatt.nic hn, hrun, hmap, Option.filter_some, hbound, decide_true, if_true]
    · have hmap : s.xsksMap (n + j) 0 = some (n + j) := (hent.veth j hj 0 _).2 ⟨hj, rfl, rfl⟩
      have hrun : runProg "veth_kern.o" (fun q => (s.xsksMap (n + j) q).isSome) 0 m data
          (data + len) = .redirect 0 := by
        rw [runProg, if_neg (by decide), xdpSockProg0, hmap]
        rfl
      unfold Plumbing.receive
      rw [(hatt.attached ifindex (n + j)).2 (.inr ⟨j, hj, name, rfl, hname, hix⟩)]
      simp only [hatt.veth j hj, hrun, hmap, Option.filter_some, hbound, decide_true, if_true]

end StartUp

/-! ### One NIC queue and two namespaces -/

/-- A host with all interfaces, on which every call succeeds. -/
def smallHost : Host where
  nicIface := "ens4"
  ifNametoindex name := if name = "ens4" then 2 else if name = "vethout2" then 7 else 9
  openOk _ _ := true
  attachOk _ := true
  portInitOk _ := true
  progInfoOk _ := true
  mapFdOk _ _ := true
  mapInfoOk _ _ := true

theorem start_up_delivers_two : smallHost.Separate 2 ∧ ∃ s, startUp smallHost 1 2 = .ok s ∧
    s.receive (smallHost.bound 1 2) 9 0 (fun _ => 0) 0 60 = some 2 ∧
    s.receive (smallHost.bound 1 2) 2 0 (fun _ => 0) 0 60 ≠ some 0 := by
  have hsep : smallHost.Separate 2 := by decide
  obtain ⟨s, hs⟩ : ∃ s, startUp smallHost 1 2 = .ok s := ⟨_, rfl⟩
  refine ⟨hsep, s, hs, ?_, fun h => ?_⟩
  · exact (start_up_delivers hsep hs 9 0 (fun _ => 0) 0 60 2).2
      ⟨by decide, fun h => absurd h (by decide)⟩
  · obtain ⟨addrs, payload, ip, haddrs, hbytes, -⟩ :=
      ((start_up_delivers hsep hs 2 0 (fun _ => 0) 0 60 0).1 h).2 (by decide)
    have htype := congrArg (List.drop 12) hbytes
    rw [List.drop_left' haddrs] at htype
    exact absurd htype (by simp [load, be16Bytes, ethPIp, List.range_succ])

end RotorXdp
