import Melissi.Machine.Space

/-!
# The rows of the matrix with one repair off

Reference: the ablations of `crates/machine/tests/parity.rs`. Those rows have no churn, so every
chunk keeps the holders it starts with, whatever the knobs. Turning off failover, the reset or live
arrivals, or fixing the sources, only takes steps away: such a scenario runs inside the one with all
four repaired, and no run of it is infinite either. The last section is how a row gets to claim what
it likes: the deeper chunks, which the priority guard puts first, are fetched before.
-/

namespace Melissi.Machine.Explore

open Melissi.Common Melissi.Machine.PullState
open Std (ExtTreeMap ExtTreeSet)

variable {sc : Scenario} {w w' : World} {c d : Cid} {p q : PeerId}

/-- `p` holds `c` from the start. -/
def Scenario.Holds (sc : Scenario) (c : Cid) (p : PeerId) : Prop :=
  ∃ h ∈ sc.holds, c ∈ h.2 ∧ h.1 = p

instance decidableHolds (sc : Scenario) (c : Cid) (p : PeerId) : Decidable (sc.Holds c p) :=
  inferInstanceAs (Decidable (∃ h ∈ sc.holds, c ∈ h.2 ∧ h.1 = p))

/-- What the ablations have in common: live chunks among the chunks, an honest holder for each, no
churn. -/
structure Scenario.Row (sc : Scenario) : Prop where
  live_sub : ∀ c ∈ sc.live, c ∈ sc.chunks
  supplied : ∀ c ∈ sc.chunks, ∃ p, sc.Holds c p ∧ sc.honest p
  churnless : sc.churnBudget = 0

/-! ## What no knob changes -/

/-- What holds of every world a row reaches, whatever its knobs. -/
structure Kept (sc : Scenario) (w : World) : Prop where
  cfg : w.m.cfg = sc.cfg
  normal : Normalised w.m
  chn : w.chn = 0
  assign : ∀ c, w.m.assign[c]? = lastOf sc.assign c
  held : ∀ c p, w.m.Held c p ↔ sc.Holds c p
  /-- A claim is on a holder that is not barred. -/
  leased : ∀ c p, w.m.Leased c p → c ∈ w.m.arrived ∧ sc.Holds c p ∧ ¬ w.m.Barred c p
  sourced : sc.cfg.singleSource → ∀ c p, w.m.Leased c p → lastOf sc.assign c = some p
  pulled : ¬ sc.cfg.enableLive → ∀ c p, w.m.Leased c p → c ∉ sc.live
  live : ∀ c, c ∈ w.m.live ↔ c ∈ w.m.arrived ∧ c ∈ sc.live
  arrived_sub : ∀ c ∈ w.m.arrived, c ∈ sc.chunks
  arrives : ∀ c ∈ sc.chunks, c ∈ w.m.arrived ∨ c ∈ sc.live
  unrejected : ∀ c, c ∉ w.m.rejected
  got_sub : ∀ c ∈ w.m.got, c ∈ w.m.arrived
  attributed : sc.timeoutBudget = 0 → w.tmo = 0 ∧ ∀ c p, w.m.Barred c p → ¬ sc.honest p

theorem kept_init (h : sc.Row) : Kept sc (init sc) := by
  have hb := blank_initMachine sc
  have harr := fun c => mem_arrived_initMachine (c := c) sc
  exact {
    cfg := hb.cfg
    normal := hb.normal
    chn := h.churnless
    assign := assign_initMachine sc
    held := fun _ _ => held_initMachine sc
    leased := fun c p hl => absurd hl (hb.unleased c p)
    sourced := fun _ c p hl => absurd hl (hb.unleased c p)
    pulled := fun _ c p hl => absurd hl (hb.unleased c p)
    live := fun c => iff_of_false (hb.unlive c) fun hn => ((harr c).mp hn.1).2 hn.2
    arrived_sub := fun c hc => ((harr c).mp hc).1
    arrives := fun c hc => or_iff_not_imp_right.mpr fun hl => (harr c).mpr ⟨hc, hl⟩
    unrejected := hb.unrejected
    got_sub := fun c hc => absurd hc (hb.ungot c)
    attributed := fun hz => ⟨hz, fun c p hbar => absurd hbar (hb.unbarred c p)⟩ }

/-- What may be claimed. -/
theorem Kept.claimable_iff (hk : Kept sc w) : w.m.claimable c p ↔
    c ∈ w.m.arrived ∧ sc.Holds c p ∧ c ∉ w.m.got ∧ ¬ w.m.Leased c p ∧ ¬ w.m.Barred c p
      ∧ (sc.cfg.dedup → c ∉ w.m.want) ∧ (sc.cfg.singleSource → lastOf sc.assign c = some p)
      ∧ (¬ sc.cfg.enableLive → c ∉ sc.live) ∧ w.m.prioOk c := by
  rw [PullState.claimable_iff, hk.held, hk.cfg, hk.assign, hk.live]
  grind

/-- Every action of a row keeps it. -/
theorem Kept.apply (h : sc.Row) (hk : Kept sc w) {a : Act} (ha : Guard sc w a) :
    Kept sc (apply sc w a) := by
  have hcfg : (Explore.apply sc w a).m.cfg = sc.cfg := by rw [apply_m, act_cfg, hk.cfg]
  have hnormal : Normalised (Explore.apply sc w a).m := by
    rw [apply_m]
    exact hk.normal.act _
  have hassign : ∀ c, (Explore.apply sc w a).m.assign[c]? = lastOf sc.assign c := by
    rw [(prio_assign_apply w a).2]
    exact hk.assign
  obtain ⟨-, -, hchn, -, hheld, hleased, hsrc, hpull, hlive, hsub, harr, hrej, hgot, hatt⟩ := id hk
  cases a with
  | want c p =>
    obtain ⟨hc, hp, -, -, hbar, -, hs, hl, -⟩ := hk.claimable_iff.mp ha
    refine ⟨hcfg, hnormal, hchn, hassign, ?_, ?_, ?_, ?_, ?_, ?_, ?_, ?_, ?_, ?_⟩ <;>
      simp only [Explore.apply, wantFrom_frame, leased_wantFrom] <;> try assumption
    · rintro d q (⟨-, rfl, rfl⟩ | hd)
      · exact ⟨hc, hp, hbar⟩
      · exact hleased d q hd
    · rintro hsingle d q (⟨-, rfl, rfl⟩ | hd)
      · exact hs hsingle
      · exact hsrc hsingle d q hd
    · rintro hoff d q (⟨-, rfl, rfl⟩ | hd)
      · exact hl hoff
      · exact hpull hoff d q hd
  | deliver c p =>
    refine ⟨hcfg, hnormal, hchn, hassign, ?_, ?_, ?_, ?_, ?_, ?_, ?_, ?_, ?_, ?_⟩ <;>
      simp only [Explore.apply, deliver_frame, leased_deliver, mem_got_deliver] <;> try assumption
    · exact fun d q hd => hleased d q hd.2
    · exact fun hsingle d q hd => hsrc hsingle d q hd.2
    · exact fun hoff d q hd => hpull hoff d q hd.2
    · rintro d (⟨rfl, hl⟩ | hd)
      · exact (hleased c p hl).1
      · exact hgot d hd
  | stall c p =>
    refine ⟨hcfg, hnormal, hchn, hassign, ?_, ?_, ?_, ?_, ?_, ?_, ?_, ?_, ?_, ?_⟩ <;>
      simp only [Explore.apply, stall_frame, leased_stall, barred_stall] <;> try assumption
    · rintro d q ⟨hne, hd⟩
      obtain ⟨hd₁, hd₂, hd₃⟩ := hleased d q hd
      refine ⟨hd₁, hd₂, ?_⟩
      rintro (⟨-, rfl, rfl⟩ | hbar)
      · exact hne ⟨ha.2.1, rfl, rfl⟩
      · exact hd₃ hbar
    · exact fun hsingle d q hd => hsrc hsingle d q hd.2
    · exact fun hoff d q hd => hpull hoff d q hd.2
    · intro hz
      obtain ⟨htmo, hbar⟩ := hatt hz
      -- with no budget the staller is byzantine
      have hbyz : ¬ sc.honest p := fun hp => by
        have := ha.2.2 hp
        omega
      refine ⟨by simpa [hbyz] using htmo, fun d q hd => ?_⟩
      rcases hd with ⟨-, rfl, rfl⟩ | hd
      · exact hbyz
      · exact hbar d q hd
  | lose c p => exact absurd ha.1 (by omega)
  | gain c p => exact absurd ha.1 (by omega)
  | new c =>
    obtain ⟨hl, hg, hr, hn⟩ := ha
    refine ⟨hcfg, hnormal, hchn, hassign, ?_, ?_, ?_, ?_, ?_, ?_, ?_, ?_, ?_, ?_⟩ <;>
      simp only [Explore.apply, arriveLive_frame, mem_arrived_arriveLive, mem_live_arriveLive] <;>
      try assumption
    · exact fun d q hd => ⟨.inl (hleased d q hd).1, (hleased d q hd).2⟩
    · intro d
      rw [hlive]
      grind
    · rintro d (hd | ⟨rfl, -⟩)
      · exact hsub d hd
      · exact h.live_sub c hl
    · exact fun d hd => (harr d hd).imp_left .inl
    · exact fun d hd => .inl (hgot d hd)
  | reset c =>
    refine ⟨hcfg, hnormal, hchn, hassign, ?_, ?_, ?_, ?_, ?_, ?_, ?_, ?_, ?_, ?_⟩ <;>
      simp only [Explore.apply, resetExcluded_frame, barred_resetExcluded] <;> try assumption
    · exact fun d q hd => ⟨(hleased d q hd).1, (hleased d q hd).2.1, fun hb => (hleased d q hd).2.2 hb.2⟩
    · exact fun hz => ⟨(hatt hz).1, fun d q hd => (hatt hz).2 d q hd.2⟩

theorem step_of_guard (a : Act) (ha : Guard sc w a) : Step sc w (apply sc w a) :=
  ⟨a, (mem_enabled a).mpr ha, rfl⟩

theorem Kept.step (h : sc.Row) (hk : Kept sc w) (hs : Step sc w w') : Kept sc w' := by
  obtain ⟨a, ha, rfl⟩ := hs
  exact hk.apply h ((mem_enabled a).mp ha)

theorem Kept.reaches (h : sc.Row) (hk : Kept sc w) (hr : Relation.ReflTransGen (Step sc) w w') :
    Kept sc w' :=
  invariant_of_reachable (fun _ _ hk hs => hk.step h hs) hk hr

theorem Reachable.kept (h : sc.Row) (hr : Reachable sc w) : Kept sc w :=
  (kept_init h).reaches h hr

/-- With one claim in flight at most for each chunk, the machine stays safe. -/
theorem Reachable.safe (hd : sc.cfg.dedup) (hr : Reachable sc w) : Safe w.m := by
  have hsafe : w.m.cfg = sc.cfg ∧ Safe w.m := by
    refine invariant_of_reachable (I := fun w => w.m.cfg = sc.cfg ∧ Safe w.m) ?_ ?_ hr
    · rintro w - ⟨hcfg, hs⟩ ⟨a, -, rfl⟩
      rw [apply_m, act_cfg]
      exact ⟨hcfg, hs.act (by rw [hcfg]; exact hd) _ (by cases a <;> trivial)⟩
    · exact ⟨(quiet_initMachine hd).cfg_eq, (quiet_initMachine hd).safe⟩
  exact hsafe.2

/-- The environment's checks pass where the machine's do. -/
theorem Kept.checkEnvInvariants (h : sc.Row) (hk : Kept sc w) (hm : w.m.checkInvariants = .ok ()) :
    checkEnvInvariants sc w = .ok () := by
  unfold Explore.checkEnvInvariants
  rw [hm]
  change (if _ then _ else _) = _
  rw [if_neg, if_neg]
  · simp only [Bool.and_eq_true, List.any_eq_true, not_and, not_exists, beq_iff_eq,
      ExtTreeSet.mem_toList]
    intro hz e he p hp
    exact (hk.attributed hz).2 e.1 p
      ((setContains_iff_mem_toList w.m.excluded e.1 p).mpr ⟨e.2, he, hp⟩)
  · simp only [List.any_eq_true, not_exists, not_and]
    intro c hc
    obtain ⟨p, hp, hh⟩ := h.supplied c hc
    obtain ⟨hs, hhs, hmem⟩ := (setContains_iff w.m.holders c p).mp ((hk.held c p).mpr hp)
    have hany : ∃ q ∈ hs, sc.honest q := ⟨p, hmem, hh⟩
    simpa [hhs, List.any_eq_true] using hany

/-! ## Knobs that only take steps away -/

section Narrow

/-- The four knobs repaired. -/
def repairs (cfg : Config) : Config :=
  { cfg with failover := true, resetOnExhaust := true, singleSource := false, enableLive := true }

def Scenario.repaired (sc : Scenario) : Scenario := { sc with cfg := repairs sc.cfg }

/-- The machine with other knobs. -/
def reconfigured (cfg : Config) (m : PullState Cid) : PullState Cid := { m with cfg := cfg }

def World.repaired (sc : Scenario) (w : World) : World :=
  { w with m := reconfigured (repairs sc.cfg) w.m }

theorem repaired_init (sc : Scenario) : init sc.repaired = (init sc).repaired sc := by
  have hm : initMachine sc.repaired = reconfigured (repairs sc.cfg) (initMachine sc) := by
    unfold initMachine
    have hobserve : ∀ (hs : List (PeerId × List Cid)) (m : PullState Cid),
        hs.foldl (fun m h => h.2.foldl (fun m c => (m.observeHolder c h.1).1) m)
            (reconfigured (repairs sc.cfg) m)
          = reconfigured (repairs sc.cfg)
            (hs.foldl (fun m h => h.2.foldl (fun m c => (m.observeHolder c h.1).1) m) m) :=
      fun hs m => List.foldl_hom _ fun m h => List.foldl_hom _ fun _ _ => rfl
    have hprio : ∀ (l : List (Cid × UInt8)) (m : PullState Cid),
        l.foldl (fun m e => m.setPrio e.1 e.2) (reconfigured (repairs sc.cfg) m)
          = reconfigured (repairs sc.cfg) (l.foldl (fun m e => m.setPrio e.1 e.2) m) :=
      fun l m => List.foldl_hom _ fun _ _ => rfl
    have hassign : ∀ (l : List (Cid × PeerId)) (m : PullState Cid),
        l.foldl (fun m e => m.setAssign e.1 e.2) (reconfigured (repairs sc.cfg) m)
          = reconfigured (repairs sc.cfg) (l.foldl (fun m e => m.setAssign e.1 e.2) m) :=
      fun l m => List.foldl_hom _ fun _ _ => rfl
    have harrive : ∀ (cs : List Cid) (m : PullState Cid),
        cs.foldl (fun m c => if sc.live.contains c then m else (m.arriveHist c).1)
            (reconfigured (repairs sc.cfg) m)
          = reconfigured (repairs sc.cfg) (cs.foldl
            (fun m c => if sc.live.contains c then m else (m.arriveHist c).1) m) := by
      refine fun cs m => List.foldl_hom _ fun m c => ?_
      split
      · rfl
      · cases hg : m.got.contains c || m.rejected.contains c <;>
          simp only [reconfigured, arriveHist, hg] <;> rfl
    dsimp only [Scenario.repaired]
    rw [show (PullState.new (repairs sc.cfg) : PullState Cid)
      = reconfigured (repairs sc.cfg) (PullState.new sc.cfg) from rfl, hobserve, hprio, hassign]
    exact harrive sc.chunks _
  rw [init, hm]
  rfl

/-- Every step of a scenario is a step of the repaired one. -/
theorem repaired_step (hcfg : w.m.cfg = sc.cfg) (hs : Step sc w w') :
    Step sc.repaired (w.repaired sc) (w'.repaired sc) := by
  obtain ⟨a, ha, rfl⟩ := hs
  have hguard := (mem_enabled a).mp ha
  have hclaim : ∀ c p, w.m.claimable c p → (w.repaired sc).m.claimable c p := by
    intro c p hc
    obtain ⟨h₁, h₂, h₃, h₄, h₅, h₆, -, -, h₉⟩ := (w.m.claimable_iff c p).mp hc
    refine ((w.repaired sc).m.claimable_iff c p).mpr ⟨h₁, h₂, h₃, h₄, h₅, fun hd => h₆ ?_,
      fun hs => ?_, fun _ => rfl, ?_⟩
    · rw [hcfg]
      exact hd
    · cases hs
    · rw [prioOk_iff] at h₉ ⊢
      rw [hcfg] at h₉
      exact h₉
  have hreset : ∀ c, w.m.canResetExcluded c → (w.repaired sc).m.canResetExcluded c := by
    intro c hc
    obtain ⟨-, hrest⟩ := (w.m.canResetExcluded_iff c).mp hc
    exact ((w.repaired sc).m.canResetExcluded_iff c).mpr ⟨rfl, hrest⟩
  refine ⟨a, (mem_enabled a).mpr ?_, ?_⟩
  · cases a with
    | want c p => exact hclaim c p hguard
    | stall c p => exact ⟨hguard.1, rfl, hguard.2.2⟩
    | reset c => exact ⟨hguard.1, hreset c hguard.2⟩
    | _ => exact hguard
  · cases a with
    | want c p =>
      have hc := hclaim c p hguard
      have hc' : w.m.claimable c p = true := hguard
      simp [World.repaired, reconfigured, apply, wantFrom, hc'] at hc ⊢
      simp [hc]
    | stall c p =>
      obtain ⟨hl, hf, -⟩ := hguard
      have hl' : setContains w.m.want c p = true := hl
      rw [hcfg] at hf
      simp [World.repaired, reconfigured, apply, stall, hl', hf, repairs, hcfg, Scenario.honest,
        Scenario.repaired]
      rfl
    | reset c =>
      have hc := hreset c hguard.2
      have hc' : w.m.canResetExcluded c = true := hguard.2
      simp [World.repaired, reconfigured, apply, resetExcluded, hc'] at hc ⊢
      simp [hc]
    | deliver c p =>
      have hl : setContains w.m.want c p = true := hguard.1
      simp only [World.repaired, reconfigured, apply, deliver, hl]
      rfl
    | new c =>
      obtain ⟨-, hg, hr, hn⟩ := hguard
      simp [World.repaired, reconfigured, apply, arriveLive, hg, hr, hn]
    | lose c p => rfl
    | gain c p => rfl

theorem Scenario.Row.positive (h : sc.Row) (hd : sc.cfg.dedup) (he : sc.cfg.exclude) :
    sc.repaired.Positive where
  dedup := hd
  failover := rfl
  exclude := he
  resetOnExhaust := rfl
  enableLive := rfl
  notSingleSource := Bool.false_ne_true
  live_sub := h.live_sub
  supplied c hc := by
    obtain ⟨p, ⟨e, he, hce, rfl⟩, hp⟩ := h.supplied c hc
    exact ⟨e, he, hce, hp⟩

/-- Where failover, the reset or live arrivals are off, or the sources are fixed, no run is infinite:
every world reached leads to one with no action left. -/
theorem exists_terminal (h : sc.Row) (hd : sc.cfg.dedup) (he : sc.cfg.exclude)
    (hr : Reachable sc w) : ∃ w', Relation.ReflTransGen (Step sc) w w' ∧ enabled sc w' = [] := by
  have hpos := h.positive hd he
  let I : World → Prop := fun w => w.m.cfg = sc.cfg ∧ Inv sc.repaired (w.repaired sc)
  have hstep : ∀ w w', I w → Step sc w w' → I w' := by
    rintro w w' ⟨hcfg, hi⟩ hs
    refine ⟨?_, hi.step hpos (repaired_step hcfg hs)⟩
    obtain ⟨a, -, rfl⟩ := hs
    rw [apply_m, act_cfg, hcfg]
  have hrank : ∀ w w', I w → Step sc w w' →
      rank sc.repaired (w'.repaired sc) < rank sc.repaired (w.repaired sc) := by
    rintro w w' ⟨hcfg, hi⟩ hs
    obtain ⟨a, ha, heq⟩ := repaired_step hcfg hs
    rw [heq]
    exact rank_apply_lt hpos hi a ((mem_enabled a).mp ha)
  have hinv : I w := invariant_of_reachable hstep
    ⟨(blank_initMachine sc).cfg, repaired_init sc ▸ inv_init hpos⟩ hr
  obtain ⟨w', hrun, hend⟩ := exists_end (I := I) (fun w => rank sc.repaired (w.repaired sc)) hstep
    hrank hinv
  exact ⟨w', hrun, List.eq_nil_iff_forall_not_mem.mpr fun a ha => hend _ ⟨a, ha, rfl⟩⟩

end Narrow

/-! ## Claiming at will -/

/-- `c` may be had from `p` under the knobs of the scenario, bars and the priority apart. -/
structure Scenario.Source (sc : Scenario) (c : Cid) (p : PeerId) : Prop where
  holds : sc.Holds c p
  assigned : sc.cfg.singleSource → lastOf sc.assign c = some p
  pulled : ¬ sc.cfg.enableLive → c ∉ sc.live

theorem Kept.unleased (hk : Kept sc w) (hfree : ∀ c p, ¬ w.m.Leased c p) (c : Cid) :
    c ∉ w.m.want := fun hc => by
  obtain ⟨p, hp⟩ := (hk.normal.want.mem_iff c).mp hc
  exact hfree c p hp

/-- With nothing in flight, the deepest of the arrived chunks is claimable from any source that is not
barred, if each of them has one. -/
theorem Kept.exists_claimable (hk : Kept sc w) (hfree : ∀ c p, ¬ w.m.Leased c p)
    (hc : c ∈ w.m.arrived) (hg : c ∉ w.m.got)
    (hsource : ∀ d ∈ w.m.arrived, d ∉ w.m.got → ∃ p, sc.Source d p ∧ ¬ w.m.Barred d p) :
    ∃ d p, w.m.claimable d p := by
  obtain ⟨d, hd, hmax⟩ := Finset.exists_max_image
    (w.m.arrived.toList.toFinset.filter fun d => d ∉ w.m.got) w.m.prioOf ⟨c, by simp [hc, hg]⟩
  simp only [Finset.mem_filter, List.mem_toFinset, ExtTreeSet.mem_toList] at hd hmax
  obtain ⟨p, hp, hbar⟩ := hsource d hd.1 hd.2
  refine ⟨d, p, hk.claimable_iff.mpr ⟨hd.1, hp.holds, hd.2, hfree d p, hbar,
    fun _ => hk.unleased hfree d, hp.assigned, hp.pulled, (w.m.prioOk_iff d).mpr fun _ d' hd' => ?_⟩⟩
  by_cases hg' : d' ∈ w.m.got
  · exact .inr (.inr ((w.m.addressed_iff d').mpr (.inl hg')))
  · exact .inl (hmax d' ⟨hd', hg'⟩)

/-- `w'` differs from `w` in the chunks fetched only, and `c` is not one of them. -/
structure Cleared (c : Cid) (w w' : World) : Prop where
  tmo : w'.tmo = w.tmo
  arrived : w'.m.arrived = w.m.arrived
  barred : w'.m.Barred = w.m.Barred
  free : ∀ d p, ¬ w'.m.Leased d p
  got : c ∈ w'.m.got ↔ c ∈ w.m.got

/-- A claim that its holder answers at once. -/
theorem fetched (hd : d ≠ c) (hfree : ∀ d p, ¬ w.m.Leased d p)
    (hclaim : w.m.claimable d p) (hp : sc.honest p) :
    ∃ w', Relation.ReflTransGen (Step sc) w w' ∧ Cleared c w w' ∧ d ∈ w'.m.got
      ∧ ∀ e ∈ w.m.got, e ∈ w'.m.got := by
  have hleased : (apply sc w (.want d p)).m.Leased d p :=
    (w.m.leased_wantFrom d d p p).mpr (.inl ⟨hclaim, rfl, rfl⟩)
  have hone : ∀ e q, (apply sc w (.want d p)).m.Leased e q ↔ d = e ∧ p = q := fun e q => by
    have := w.m.leased_wantFrom d e p q
    simp only [hclaim, hfree, or_false, true_and] at this
    exact this
  refine ⟨apply sc (apply sc w (.want d p)) (.deliver d p), .head (step_of_guard (.want d p) hclaim)
    (.single (step_of_guard (.deliver d p) ⟨hleased, hp⟩)), ⟨rfl, ?_, ?_, ?_, ?_⟩, ?_, ?_⟩
  · simp [apply]
  · simp [apply]
  · intro e q hl
    obtain ⟨hne, hl⟩ := (leased_deliver ..).mp hl
    exact hne ((hone e q).mp hl)
  · have := (apply sc w (.want d p)).m.mem_got_deliver d c p
    simp only [hd, false_and, false_or] at this
    refine this.trans ?_
    simp [apply]
  · exact (mem_got_deliver ..).mpr (.inl ⟨rfl, hleased⟩)
  · intro e he
    exact (mem_got_deliver ..).mpr (.inr (by simpa [apply] using he))

theorem Cleared.trans {w'' : World} (h : Cleared c w w') (h' : Cleared c w' w'') : Cleared c w w'' where
  tmo := h'.tmo.trans h.tmo
  arrived := h'.arrived.trans h.arrived
  barred := h'.barred.trans h.barred
  free := h'.free
  got := h'.got.trans h.got

/-- Once the chunks before it are fetched, `c` may be claimed from any of its sources that is not
barred. -/
theorem exists_cleared (h : sc.Row) (hk : Kept sc w) (hfree : ∀ d p, ¬ w.m.Leased d p)
    (hsource : ∀ d ∈ w.m.arrived, d ≠ c → ∃ q, sc.Source d q ∧ sc.honest q)
    (hclean : ∀ d, d ≠ c → ∀ q, ¬ w.m.Barred d q) (hc : c ∈ w.m.arrived) (hg : c ∉ w.m.got)
    (hp : sc.Source c p) (hbar : ¬ w.m.Barred c p) :
    ∃ w', Relation.ReflTransGen (Step sc) w w' ∧ Cleared c w w' ∧ w'.m.claimable c p := by
  induction hn : count sc.chunks.toFinset (· ∉ w.m.got) using Nat.strong_induction_on
    generalizing w with
  | _ n ih =>
    subst hn
    by_cases hprio : w.m.prioOk c
    · exact ⟨w, .refl, ⟨rfl, rfl, rfl, hfree, Iff.rfl⟩, hk.claimable_iff.mpr ⟨hc, hp.holds, hg,
        hfree c p, hbar, fun _ => hk.unleased hfree c, hp.assigned, hp.pulled, hprio⟩⟩
    · -- the deepest of the chunks that stand before `c`
      rw [prioOk_iff] at hprio
      push Not at hprio
      obtain ⟨hon, d, hd, hlt, -, haddr⟩ := hprio
      obtain ⟨e, he, hmax⟩ := Finset.exists_max_image
        (w.m.arrived.toList.toFinset.filter fun d => d ∉ w.m.got) w.m.prioOf
        ⟨d, by simpa [hd] using fun hn => haddr ((w.m.addressed_iff d).mpr (.inl hn))⟩
      simp only [Finset.mem_filter, List.mem_toFinset, ExtTreeSet.mem_toList] at he hmax
      have hde := hmax d ⟨hd, fun hn => haddr ((w.m.addressed_iff d).mpr (.inl hn))⟩
      have hec : e ≠ c := by
        rintro rfl
        exact absurd hde (not_le.mpr hlt)
      obtain ⟨q, hq, hhon⟩ := hsource e he.1 hec
      have hclaim : w.m.claimable e q := hk.claimable_iff.mpr ⟨he.1, hq.holds, he.2, hfree e q,
        hclean e hec q, fun _ => hk.unleased hfree e, hq.assigned, hq.pulled,
        (w.m.prioOk_iff e).mpr fun _ d' hd' => by
          by_cases hg' : d' ∈ w.m.got
          · exact .inr (.inr ((w.m.addressed_iff d').mpr (.inl hg')))
          · exact .inl (hmax d' ⟨hd', hg'⟩)⟩
      obtain ⟨w₁, hrun, hclear, hgot, hmono⟩ := fetched (c := c) hec hfree hclaim hhon
      have hlower : count sc.chunks.toFinset (· ∉ w₁.m.got)
          < count sc.chunks.toFinset (· ∉ w.m.got) :=
        count_lt e (List.mem_toFinset.mpr (hk.arrived_sub e he.1)) he.2 (not_not.mpr hgot)
          fun d' _ hd' hn => hd' (hmono d' hn)
      obtain ⟨w', hrun', hclear', hw'⟩ := ih _ hlower (hk.reaches h hrun) hclear.free
        (fun d' hd' => hsource d' (hclear.arrived ▸ hd')) (fun d' hd' => by
          rw [hclear.barred]
          exact hclean d' hd') (hclear.arrived ▸ hc) (mt hclear.got.mp hg)
        (by rw [hclear.barred]; exact hbar) rfl
      exact ⟨w', hrun.trans hrun', hclear.trans hclear', hw'⟩

/-- Any chunk can be brought into the window first, with nothing claimed or barred yet. -/
theorem exists_arrived (hc : c ∈ sc.chunks) :
    ∃ w, Reachable sc w ∧ c ∈ w.m.arrived ∧ (∀ d, d ∉ w.m.got) ∧ (∀ d p, ¬ w.m.Leased d p)
      ∧ (∀ d p, ¬ w.m.Barred d p) ∧ w.tmo = sc.timeoutBudget := by
  have hb := blank_initMachine sc
  by_cases hl : c ∈ sc.live
  · refine ⟨apply sc (init sc) (.new c), .single (step_of_guard (.new c) ⟨hl, hb.ungot c,
      hb.unrejected c, fun hn => ((mem_arrived_initMachine sc).mp hn).2 hl⟩), ?_, ?_, ?_, ?_, rfl⟩
    · exact (mem_arrived_arriveLive ..).mpr (.inr ⟨rfl, hb.ungot c, hb.unrejected c⟩)
    · simpa [apply, init] using hb.ungot
    · simpa [apply, init] using hb.unleased
    · simpa [apply, init] using hb.unbarred
  · exact ⟨init sc, .refl, (mem_arrived_initMachine sc).mpr ⟨hc, hl⟩, hb.ungot, hb.unleased,
      hb.unbarred, rfl⟩

end Melissi.Machine.Explore
