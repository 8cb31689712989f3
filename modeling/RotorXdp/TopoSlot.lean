import RotorXdp.Ports

/-!
# The topology slot of a lookup

`topo` is 0 until the main thread has run `read_time` for the first time. The main thread does so
after it has created all threads: the call before the loop is commented out.

* `readTime_range`: `read_time` stores a slot of the route table;
* `NodeStep.topo`: what a step can do to `topo` and to the record of the lookups;
* `route_call_iff`: the lookups that are made with a valid slot.
-/

namespace RotorXdp

open Runs

variable {P : NodeParams} {s s' : Node} {a : NodeAct}

theorem readTime_range (sec nsec : ℤ) : 1 ≤ readTime sec nsec ∧ readTime sec nsec ≤ 32 := by
  unfold readTime
  simp only
  omega

/-- `topo` as it is after a number of runs of `read_time`. -/
def ValidFrom (ticks topo : ℕ) : Prop :=
  (ticks = 0 → topo = 0) ∧ (1 ≤ ticks → 1 ≤ topo ∧ topo ≤ 32)

theorem ValidFrom.iff {ticks topo : ℕ} (h : ValidFrom ticks topo) :
    (1 ≤ topo ∧ topo ≤ 32) ↔ 1 ≤ ticks := by
  constructor
  · rintro ⟨h1, -⟩
    rcases Nat.eq_zero_or_pos ticks with h0 | hpos
    · have := h.1 h0
      omega
    · exact hpos
  · exact h.2

/-- A slot is below 32, so the row is one of the table. -/
theorem slotAt_lt {t pos w : ℕ} {Q : QueueId} (ht : t < P.n)
    (h : slotAt P t pos = some (Q, w)) : w < 32 := by
  have hw := ((slotAt_nic ht).1 h).1
  have hle : P.perDest ≤ 32 := Nat.div_le_self _ _
  omega

theorem mem_routeCall {topo ticks w t pos : ℕ} {Q : QueueId} {c : RouteCall}
    (hslot : slotAt P t pos = some (Q, w)) (hc : c ∈ routeCall topo ticks Q w) :
    (1 ≤ c.row ∧ c.row ≤ 32) ∧ c.topo = topo ∧ c.ticks = ticks := by
  have ht : t < P.n ∨ ∃ k, Q = .veth k := by
    unfold slotAt at hslot
    split at hslot
    · rename_i hrole
      exact .inl (role_eq_vethToNicTx.1 hrole)
    · split at hslot
      · obtain ⟨q, -, hq⟩ := Option.map_eq_some_iff.1 hslot
        cases hq
        exact .inr ⟨q, rfl⟩
      · exact absurd hslot (by simp)
    · exact absurd hslot (by simp)
  rcases ht with ht | ⟨k, rfl⟩
  · have hw := slotAt_lt ht hslot
    cases Q with
    | loc q =>
      obtain rfl := List.mem_singleton.1 hc
      exact ⟨⟨by simp only; omega, by simp only; omega⟩, rfl, rfl⟩
    | nonLocal q =>
      obtain rfl := List.mem_singleton.1 hc
      exact ⟨⟨by simp only; omega, by simp only; omega⟩, rfl, rfl⟩
    | veth q => exact absurd hc (by simp [routeCall])
  · exact absurd hc (by simp [routeCall])

/-- What a step does to the slot, the count of `read_time` and the record of the lookups. -/
theorem NodeStep.topo (h : NodeStep P s a s') :
    (s'.topo = s.topo ∧ s'.log.ticks = s.log.ticks ∧ s'.log.routeCalls = s.log.routeCalls) ∨
    ((1 ≤ s'.topo ∧ s'.topo ≤ 32) ∧ s'.log.ticks = s.log.ticks + 1 ∧
      s'.log.routeCalls = s.log.routeCalls) ∨
    ∃ t pos Q w, slotAt P t pos = some (Q, w) ∧ s'.topo = s.topo ∧ s'.log.ticks = s.log.ticks ∧
      s'.log.routeCalls = s.log.routeCalls ++ routeCall s.topo s.log.ticks Q w := by
  cases h with
  | create | arrive | kernelTake | kernelComplete => exact .inl ⟨rfl, rfl, rfl⟩
  | rxFault | rxBurst | handleFault | accept | ignore => exact .inl ⟨rfl, rfl, rfl⟩
  | advance | call | submit => exact .inl ⟨rfl, rfl, rfl⟩
  | readTime sec nsec hcreated => exact .inr (.inl ⟨readTime_range sec nsec, rfl, rfl⟩)
  | reject t p x rest ret Q f ht hburst hrecv hfull =>
    obtain ⟨bp, bc, fault, heq⟩ := Node.release_eq { s with rx := _ } t p [x.rx.addr]
    rw [heq]
    exact .inl ⟨rfl, rfl, rfl⟩
  | giveBack t p x rest ret ht hburst hrecv =>
    obtain ⟨bp, bc, fault, heq⟩ := Node.release_eq { s with rx := _ } t p [x.rx.addr]
    rw [heq]
    exact .inl ⟨rfl, rfl, rfl⟩
  | pullFault t p Q w _ _ e ht hslot => exact .inr (.inr ⟨t, _, Q, w, hslot, rfl, rfl, rfl⟩)
  | pull t p Q w x rest f ht hroom hslot hqueue hprep =>
    exact .inr (.inr ⟨t, _, Q, w, hslot, rfl, rfl, rfl⟩)
  | drain t p k s₁ ht hk hs₁ =>
    obtain ⟨bp, bc, fault, heq⟩ := (s.note [⟨t, p, .txComp⟩]).release_eq t p ((s.umemCq p).take k)
    rw [hs₁, heq]
    exact .inl ⟨rfl, rfl, rfl⟩

/-- The slot and all lookups so far. -/
structure TopoInv (s : Node) : Prop where
  now : ValidFrom s.log.ticks s.topo
  calls : ∀ c ∈ s.log.routeCalls, (1 ≤ c.row ∧ c.row ≤ 32) ∧ ValidFrom c.ticks c.topo

theorem TopoInv.start (bp : Bpool) (ports : ℕ → PortInit) : TopoInv (Node.start bp ports) where
  now := ⟨fun _ => rfl, fun h => absurd h (by simp [Node.start])⟩
  calls c hc := absurd hc (by simp [Node.start])

theorem TopoInv.step (hinv : TopoInv s) (h : NodeStep P s a s') : TopoInv s' := by
  rcases h.topo with ⟨htopo, hticks, hcalls⟩ | ⟨hrange, hticks, hcalls⟩ |
    ⟨t, pos, Q, w, hslot, htopo, hticks, hcalls⟩
  · constructor
    · rw [htopo, hticks]; exact hinv.now
    · rw [hcalls]; exact hinv.calls
  · constructor
    · rw [hticks]
      exact ⟨fun h0 => absurd h0 (by simp), fun _ => hrange⟩
    · rw [hcalls]; exact hinv.calls
  · constructor
    · rw [htopo, hticks]; exact hinv.now
    · intro c hc
      rw [hcalls, List.mem_append] at hc
      rcases hc with hc | hc
      · exact hinv.calls c hc
      · obtain ⟨hrow, hct, hck⟩ := mem_routeCall hslot hc
        rw [hct, hck]
        exact ⟨hrow, hinv.now⟩

/-- **A route is looked up with a slot of the table, and found, exactly when `read_time` has run
before.** -/
theorem route_call_iff (P : NodeParams) (bp : Bpool) (ports : ℕ → PortInit) (as : List NodeAct)
    (s : Node) (h : run (Node.step P) (Node.start bp ports) as = some s) (c : RouteCall)
    (hc : c ∈ s.log.routeCalls) :
    (1 ≤ c.row ∧ c.row ≤ 32) ∧
      ((1 ≤ c.topo ∧ c.topo ≤ 32 ∧
        ∃ macIndex, getRouteElement P.g.routeTable c.row c.topo = (0, some macIndex)) ↔
          1 ≤ c.ticks) := by
  have hinv : TopoInv s := run_invariant TopoInv
    (fun u a v hu hv => hu.step (NodeStep.of_step hv).2) (TopoInv.start bp ports) h
  obtain ⟨hrow, hvalid⟩ := hinv.calls c hc
  refine ⟨hrow, ?_⟩
  rw [← hvalid.iff]
  constructor
  · rintro ⟨h1, h32, -⟩
    exact ⟨h1, h32⟩
  · rintro ⟨h1, h32⟩
    refine ⟨h1, h32, _, getRouteElement_inside ?_⟩
    unfold RouteMatrix.outside
    rw [P.rows_eq, P.cols_eq]
    omega

/-! ### A frame before and after the first `read_time` -/

/-- Both threads of a node with one NIC port start, `main` does `ticks`, and a frame is received and
pulled to be forwarded. -/
def forwardAfter (ticks : List NodeAct) : List NodeAct :=
  [.create, .create] ++ ticks ++
    [.arrive 0 (tunnelledAt 405504), .rxBurst 1 1, .handle 1, .leave 0,
      .leave 0, .pull 0]

theorem route_call_after : ∃ s₀ s, Node.boot ⟨100, 4096, 20, 20, 20⟩ 1 = some s₀ ∧
    run (Node.step (smallNode 1 0)) s₀ (forwardAfter [.readTime 0 0]) = some s ∧
    s.log.routeCalls = [⟨3, 1, 1⟩] ∧
    ∃ macIndex, getRouteElement (smallNode 1 0).g.routeTable 3 (1 : ℕ) = (0, some macIndex) := by
  have hrun : ((Node.boot ⟨100, 4096, 20, 20, 20⟩ 1).bind fun s₀ =>
      (run (Node.step (smallNode 1 0)) s₀ (forwardAfter [.readTime 0 0])).map fun s =>
        s.log.routeCalls) = some [⟨3, 1, 1⟩] := by decide +kernel
  obtain ⟨s₀, hs₀, hmap⟩ := Option.bind_eq_some_iff.1 hrun
  obtain ⟨s, hs, hcalls⟩ := Option.map_eq_some_iff.1 hmap
  obtain ⟨bp, ports, rfl⟩ := Node.boot_eq_some hs₀
  have hmem : ⟨3, 1, 1⟩ ∈ s.log.routeCalls := by rw [hcalls]; exact List.mem_singleton_self _
  obtain ⟨-, hiff⟩ := route_call_iff (smallNode 1 0) bp ports _ s hs _ hmem
  obtain ⟨-, -, hget⟩ := hiff.2 (Nat.le_refl 1)
  exact ⟨_, s, hs₀, hs, hcalls, hget⟩

/-- The threads run before `main` reaches `read_time`: the lookup fails and the MAC index that is
used next is not set. -/
theorem route_call_before : ∃ s₀ s, Node.boot ⟨100, 4096, 20, 20, 20⟩ 1 = some s₀ ∧
    run (Node.step (smallNode 1 0)) s₀ (forwardAfter []) = some s ∧
    s.log.routeCalls = [⟨3, 0, 0⟩] ∧ s.fault = some .uninit ∧
    getRouteElement (smallNode 1 0).g.routeTable 3 (0 : ℕ) = (-2, none) := by
  have hrun : ((Node.boot ⟨100, 4096, 20, 20, 20⟩ 1).bind fun s₀ =>
      (run (Node.step (smallNode 1 0)) s₀ (forwardAfter [])).map fun s =>
        (s.log.routeCalls, s.fault)) = some ([⟨3, 0, 0⟩], some .uninit) := by decide +kernel
  obtain ⟨s₀, hs₀, hmap⟩ := Option.bind_eq_some_iff.1 hrun
  obtain ⟨s, hs, hlog⟩ := Option.map_eq_some_iff.1 hmap
  obtain ⟨hcalls, hfault⟩ := Prod.mk.inj hlog
  exact ⟨s₀, s, hs₀, hs, hcalls, hfault, rfl⟩

end RotorXdp
