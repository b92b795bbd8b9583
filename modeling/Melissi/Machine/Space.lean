import Melissi.Machine.Bisim

/-!
# The worlds of a scenario are finitely many

Reference: `crates/machine/src/explore.rs`. Whatever the knobs, everything the machine keeps in a
reachable world is about the chunks and the peers the scenario names. The counter of deliveries is
bounded too: a delivered pair is never claimed again, so each pair is delivered at most once.
-/

namespace Melissi.Machine.Explore

open Melissi.Common Melissi.Machine.PullState

variable {sc : Scenario} {w w' : World} {c d : Cid} {p q : PeerId}

/-- The chunks a scenario names. -/
def Scenario.cids (sc : Scenario) : Finset Cid :=
  (sc.chunks ++ sc.live ++ sc.holds.flatMap (·.2)).toFinset

/-- The peers a scenario names. -/
def Scenario.pids (sc : Scenario) : Finset PeerId :=
  (sc.peers ++ sc.holds.map (·.1)).toFinset

theorem Scenario.mem_cids {c : Cid} :
    c ∈ sc.cids ↔ (c ∈ sc.chunks ∨ c ∈ sc.live) ∨ ∃ h ∈ sc.holds, c ∈ h.2 := by
  simp only [Scenario.cids, List.mem_toFinset, List.mem_append, List.mem_flatMap]

theorem Scenario.mem_pids {p : PeerId} :
    p ∈ sc.pids ↔ p ∈ sc.peers ∨ ∃ h ∈ sc.holds, h.1 = p := by
  simp only [Scenario.pids, List.mem_toFinset, List.mem_append, List.mem_map]

/-- The pairs a scenario names. -/
def Scenario.span (sc : Scenario) : Finset (Cid × PeerId) := sc.cids ×ˢ sc.pids

/-- The pairs whose chunk is stored and that no claim is open for. -/
def paid (sc : Scenario) (m : PullState Cid) : Finset (Cid × PeerId) :=
  sc.span.filter fun e => e.1 ∈ m.got ∧ ¬ m.Leased e.1 e.2

/-- What bounds a reachable world. -/
structure Bounded (sc : Scenario) (w : World) : Prop where
  cfg : w.m.cfg = sc.cfg
  normal : Normalised w.m
  prio : w.m.prio = (initMachine sc).prio
  assign : w.m.assign = (initMachine sc).assign
  unrejected : ∀ c, c ∉ w.m.rejected
  npre : w.m.npre = 0
  held : ∀ c p, w.m.Held c p → (c, p) ∈ sc.span
  leased : ∀ c p, w.m.Leased c p → (c, p) ∈ sc.span
  barred : ∀ c p, w.m.Barred c p → (c, p) ∈ sc.span
  arrived : ∀ c ∈ w.m.arrived, c ∈ sc.cids
  live : ∀ c ∈ w.m.live, c ∈ sc.cids
  got : ∀ c ∈ w.m.got, c ∈ sc.cids
  ndeliv : w.m.ndeliv ≤ (paid sc w.m).card
  tmo : w.tmo ≤ sc.timeoutBudget
  chn : w.chn ≤ sc.churnBudget

theorem bounded_init (sc : Scenario) : Bounded sc (init sc) := by
  have hb := blank_initMachine sc
  exact {
    cfg := hb.cfg
    normal := hb.normal
    prio := rfl
    assign := rfl
    unrejected := hb.unrejected
    npre := hb.npre
    held := fun c p hp => by
      obtain ⟨h, hh, hc, rfl⟩ := (held_initMachine sc).mp hp
      exact Finset.mem_product.mpr ⟨Scenario.mem_cids.mpr (.inr ⟨h, hh, hc⟩),
        Scenario.mem_pids.mpr (.inr ⟨h, hh, rfl⟩)⟩
    leased := fun c p hp => absurd hp (hb.unleased c p)
    barred := fun c p hp => absurd hp (hb.unbarred c p)
    arrived := fun c hc =>
      Scenario.mem_cids.mpr (.inl (.inl ((mem_arrived_initMachine sc).mp hc).1))
    live := fun c hc => absurd hc (hb.unlive c)
    got := fun c hc => absurd hc (hb.ungot c)
    ndeliv := hb.ndeliv.trans_le (Nat.zero_le _)
    tmo := le_refl _
    chn := le_refl _ }

/-- A pair that is paid for stays so while its chunk stays stored and is not claimed. -/
theorem paid_mono {m m' : PullState Cid} (hgot : ∀ c ∈ m.got, c ∈ m'.got)
    (hleased : ∀ c p, c ∈ m.got → m'.Leased c p → m.Leased c p) : paid sc m ⊆ paid sc m' := by
  intro e he
  obtain ⟨hspan, hg, hl⟩ := Finset.mem_filter.mp he
  exact Finset.mem_filter.mpr ⟨hspan, hgot _ hg, fun h => hl (hleased _ _ hg h)⟩

/-- A delivery pays for its pair. -/
theorem paid_deliver (hspan : (c, p) ∈ sc.span) (hl : w.m.Leased c p) :
    (paid sc w.m).card < (paid sc (w.m.deliver c p).1).card := by
  refine Finset.card_lt_card ((Finset.ssubset_iff_of_subset (paid_mono ?_ ?_)).mpr ⟨(c, p), ?_, ?_⟩)
  · exact fun d hd => (mem_got_deliver ..).mpr (.inr hd)
  · exact fun d q _ h => ((leased_deliver ..).mp h).2
  · refine Finset.mem_filter.mpr ⟨hspan, (mem_got_deliver ..).mpr (.inl ⟨rfl, hl⟩), fun h => ?_⟩
    exact ((leased_deliver ..).mp h).1 ⟨rfl, rfl⟩
  · exact fun h => (Finset.mem_filter.mp h).2.2 hl

/-- Every enabled action keeps the bounds. -/
theorem Bounded.step (hb : Bounded sc w) {a : Act} (ha : Guard sc w a) :
    Bounded sc (apply sc w a) := by
  have hcfg : (apply sc w a).m.cfg = sc.cfg := by rw [apply_m, act_cfg, hb.cfg]
  have hnormal : Normalised (apply sc w a).m := by
    rw [apply_m]
    exact hb.normal.act _
  have hprio : (apply sc w a).m.prio = (initMachine sc).prio := (prio_assign_apply w a).1.trans hb.prio
  have hassign : (apply sc w a).m.assign = (initMachine sc).assign :=
    (prio_assign_apply w a).2.trans hb.assign
  obtain ⟨-, -, -, -, hrej, hnpre, hheld, hleased, hbarred, harr, hlive, hgot, hnd, htmo, hchn⟩ := hb
  cases a <;> refine ⟨hcfg, hnormal, hprio, hassign, ?_, ?_, ?_, ?_, ?_, ?_, ?_, ?_, ?_, ?_, ?_⟩ <;>
    simp only [apply, wantFrom_frame, deliver_frame, stall_frame, loseHolder_frame,
      observeHolder_frame, arriveLive_frame, resetExcluded_frame, leased_wantFrom, leased_deliver,
      leased_stall, leased_loseHolder, held_loseHolder, held_observeHolder, mem_got_deliver,
      mem_arrived_arriveLive, mem_live_arriveLive, barred_stall, barred_resetExcluded] <;>
    try assumption
  case want.refine_4 c p =>
    rintro d q (⟨hcl, rfl, rfl⟩ | hl)
    · exact hheld c p ((w.m.claimable_iff c p).mp hcl).2.1
    · exact hleased d q hl
  case want.refine_9 c p =>
    refine hnd.trans (Finset.card_le_card (paid_mono (fun d hd => by simpa using hd) ?_))
    intro d q hd hl
    rcases (leased_wantFrom ..).mp hl with ⟨hcl, rfl, -⟩ | hl
    · exact absurd hd ((w.m.claimable_iff c p).mp hcl).2.2.1
    · exact hl
  case deliver.refine_4 c p => exact fun d q hl => hleased d q hl.2
  case deliver.refine_8 c p =>
    rintro d (⟨rfl, hl⟩ | hg)
    · exact (Finset.mem_product.mp (hleased c p hl)).1
    · exact hgot d hg
  case deliver.refine_9 c p =>
    have hlt := paid_deliver (hleased c p ha.1) ha.1
    have hone : (w.m.deliver c p).1.ndeliv = w.m.ndeliv + 1 := by
      have hl : setContains w.m.want c p = true := ha.1
      simp [deliver, hl]
    omega
  case stall.refine_4 c p => exact fun d q hl => hleased d q hl.2
  case stall.refine_5 c p =>
    rintro d q (⟨⟨-, -, hl⟩, rfl, rfl⟩ | hb)
    · exact hleased c p hl
    · exact hbarred d q hb
  case stall.refine_9 c p =>
    refine hnd.trans (Finset.card_le_card (paid_mono (fun d hd => by simpa using hd) ?_))
    exact fun d q _ hl => ((leased_stall ..).mp hl).2
  case stall.refine_10 c p =>
    split
    · exact (Nat.sub_le _ _).trans htmo
    · exact htmo
  case lose.refine_3 c p => exact fun d q hq => hheld d q hq.2
  case lose.refine_4 c p => exact fun d q hl => hleased d q hl.2
  case lose.refine_9 c p =>
    refine hnd.trans (Finset.card_le_card (paid_mono (fun d hd => by simpa using hd) ?_))
    exact fun d q _ hl => ((leased_loseHolder ..).mp hl).2
  case lose.refine_11 c p => exact (Nat.sub_le _ _).trans hchn
  case gain.refine_3 c p =>
    rintro d q (⟨rfl, rfl⟩ | hq)
    · exact Finset.mem_product.mpr ⟨Scenario.mem_cids.mpr (.inl (.inl ha.2.1)),
        Scenario.mem_pids.mpr (.inl ha.2.2.2.1)⟩
    · exact hheld d q hq
  case gain.refine_11 c p => exact (Nat.sub_le _ _).trans hchn
  case new.refine_6 c =>
    rintro d (hd | ⟨rfl, -⟩)
    · exact harr d hd
    · exact Scenario.mem_cids.mpr (.inl (.inr ha.1))
  case new.refine_7 c =>
    rintro d (hd | ⟨rfl, -⟩)
    · exact hlive d hd
    · exact Scenario.mem_cids.mpr (.inl (.inr ha.1))
  case reset.refine_5 c => exact fun d q hq => hbarred d q hq.2
  all_goals
    refine hnd.trans (Finset.card_le_card (paid_mono (fun d hd => by simpa using hd) ?_))
    exact fun d q _ hl => by simpa using hl

theorem Reachable.bounded (hr : Reachable sc w) : Bounded sc w := by
  induction hr with
  | refl => exact bounded_init sc
  | tail _ hs ih =>
    obtain ⟨a, ha, rfl⟩ := hs
    exact ih.step ((mem_enabled a).mp ha)

/-- The pairs of a relation that a scenario names. -/
def pairs (sc : Scenario) (r : Cid → PeerId → Prop) [∀ c p, Decidable (r c p)] :
    Finset (Cid × PeerId) := sc.span.filter fun e => r e.1 e.2

/-- What tells the bounded worlds apart. -/
def code (sc : Scenario) (w : World) :
    ((Finset (Cid × PeerId) × Finset (Cid × PeerId) × Finset (Cid × PeerId))
      × (Finset Cid × Finset Cid × Finset Cid)) × (Bool × ℕ × ℕ × ℕ) :=
  (((pairs sc w.m.Leased, pairs sc w.m.Held, pairs sc w.m.Barred),
    (sc.cids.filter (· ∈ w.m.arrived), sc.cids.filter (· ∈ w.m.live), sc.cids.filter (· ∈ w.m.got))),
    (w.m.conflict, w.m.ndeliv, w.tmo, w.chn))

theorem code_injective (hb : Bounded sc w) (hb' : Bounded sc w') (he : code sc w = code sc w') :
    w = w' := by
  simp only [code, Prod.mk.injEq] at he
  obtain ⟨⟨⟨hl, hh, hx⟩, ha, hv, hg⟩, hc, hn, ht, hs⟩ := he
  have hrel : ∀ {r r' : Cid → PeerId → Prop} [∀ c p, Decidable (r c p)] [∀ c p, Decidable (r' c p)],
      (∀ c p, r c p → (c, p) ∈ sc.span) → (∀ c p, r' c p → (c, p) ∈ sc.span) →
      pairs sc r = pairs sc r' → ∀ c p, r c p ↔ r' c p := by
    intro r r' _ _ hr hr' heq c p
    have hmem : (c, p) ∈ pairs sc r ↔ (c, p) ∈ pairs sc r' := by rw [heq]
    simp only [pairs, Finset.mem_filter] at hmem
    exact ⟨fun h => (hmem.mp ⟨hr c p h, h⟩).2, fun h => (hmem.mpr ⟨hr' c p h, h⟩).2⟩
  have hset : ∀ {s s' : BTreeSet Cid}, (∀ c ∈ s, c ∈ sc.cids) → (∀ c ∈ s', c ∈ sc.cids) →
      sc.cids.filter (· ∈ s) = sc.cids.filter (· ∈ s') → ∀ c, c ∈ s ↔ c ∈ s' := by
    intro s s' hsub hsub' heq c
    have hmem : c ∈ sc.cids.filter (· ∈ s) ↔ c ∈ sc.cids.filter (· ∈ s') := by rw [heq]
    simp only [Finset.mem_filter] at hmem
    exact ⟨fun h => (hmem.mp ⟨hsub c h, h⟩).2, fun h => (hmem.mpr ⟨hsub' c h, h⟩).2⟩
  have hm : w.m = w'.m := PullState.ext_kept hb.normal hb'.normal (hb.cfg.trans hb'.cfg.symm)
    (hrel hb.leased hb'.leased hl) (hrel hb.held hb'.held hh) (hrel hb.barred hb'.barred hx)
    (hset hb.arrived hb'.arrived ha) (hset hb.live hb'.live hv)
    (fun c => iff_of_false (hb.unrejected c) (hb'.unrejected c)) (hset hb.got hb'.got hg)
    (hb.prio.trans hb'.prio.symm) (hb.assign.trans hb'.assign.symm) hc hn
    (hb.npre.trans hb'.npre.symm)
  obtain ⟨m, tmo, chn⟩ := w
  obtain ⟨m', tmo', chn'⟩ := w'
  obtain rfl : m = m' := hm
  obtain rfl : tmo = tmo' := ht
  obtain rfl : chn = chn' := hs
  rfl

/-- The codes of bounded worlds. -/
def codes (sc : Scenario) : Finset (((Finset (Cid × PeerId) × Finset (Cid × PeerId)
    × Finset (Cid × PeerId)) × (Finset Cid × Finset Cid × Finset Cid)) × (Bool × ℕ × ℕ × ℕ)) :=
  ((sc.span.powerset ×ˢ sc.span.powerset ×ˢ sc.span.powerset)
    ×ˢ (sc.cids.powerset ×ˢ sc.cids.powerset ×ˢ sc.cids.powerset))
    ×ˢ (Finset.univ ×ˢ Finset.range (sc.span.card + 1) ×ˢ Finset.range (sc.timeoutBudget + 1)
      ×ˢ Finset.range (sc.churnBudget + 1))

theorem Bounded.code_mem (hb : Bounded sc w) : code sc w ∈ codes sc := by
  have hnd : w.m.ndeliv ≤ sc.span.card :=
    hb.ndeliv.trans (Finset.card_le_card (Finset.filter_subset _ _))
  simp only [code, codes, pairs, Finset.mem_product, Finset.mem_powerset, Finset.filter_subset,
    Finset.mem_univ, Finset.mem_range, true_and]
  have htmo := hb.tmo
  have hchn := hb.chn
  omega

/-- Finitely many worlds can be reached. -/
theorem reachable_finite (sc : Scenario) : {w | Reachable sc w}.Finite := by
  refine Set.Finite.of_finite_image (f := code sc) ?_ ?_
  · refine (codes sc).finite_toSet.subset ?_
    rintro _ ⟨w, hw, rfl⟩
    exact (Reachable.bounded hw).code_mem
  · exact fun w hw w' hw' he =>
      code_injective (Reachable.bounded hw) (Reachable.bounded hw') he

end Melissi.Machine.Explore
