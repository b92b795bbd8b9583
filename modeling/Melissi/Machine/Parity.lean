import Melissi.Common.Feed
import Melissi.Common.Rank
import Melissi.Machine.Explore

/-!
# The parity matrix for every size

Under the positive knob settings every reachable world passes the invariants, no run is infinite and
a world where nothing is enabled has every chunk stored.

A stall of an honest peer spends the timeout budget and adds a bar; a reset clears at least one
honest bar, because every chunk keeps an honest holder and a reset needs all holders barred. So
twice the budget plus the honest bars never grows, and what is left to a run without a reset is
bounded by the byzantine bars still to be made and the chunks still to be leased.
-/

namespace Melissi.Machine.Explore

open Melissi.Common Melissi.Machine.PullState
open Std (ExtTreeMap ExtTreeSet)

variable {sc : Scenario} {w w' : World} {c d : Cid} {p q : PeerId}

/-- The scenarios of the positive rows: every repair on, no fixed source, live chunks among the
chunks, an honest holder for each. -/
structure Scenario.Positive (sc : Scenario) : Prop where
  dedup : sc.cfg.dedup
  failover : sc.cfg.failover
  exclude : sc.cfg.exclude
  resetOnExhaust : sc.cfg.resetOnExhaust
  enableLive : sc.cfg.enableLive
  notSingleSource : ¬ sc.cfg.singleSource
  live_sub : ∀ c ∈ sc.live, c ∈ sc.chunks
  supplied : ∀ c ∈ sc.chunks, ∃ h ∈ sc.holds, c ∈ h.2 ∧ sc.honest h.1

/-! ## The enabled actions -/

/-- When an action is enabled. -/
def Guard (sc : Scenario) (w : World) : Act → Prop
  | .want c p => w.m.claimable c p
  | .deliver c p => w.m.Leased c p ∧ sc.honest p
  | .stall c p => w.m.Leased c p ∧ w.m.cfg.failover ∧ (sc.honest p → 0 < w.tmo)
  | .lose c p => 0 < w.chn ∧ c ∈ sc.chunks ∧ c ∉ w.m.got ∧ w.m.Held c p
      ∧ ∃ q, q ≠ p ∧ w.m.Held c q ∧ sc.honest q
  | .gain c p => 0 < w.chn ∧ c ∈ sc.chunks ∧ c ∉ w.m.got ∧ p ∈ sc.peers ∧ ¬ w.m.Held c p
  | .new c => c ∈ sc.live ∧ c ∉ w.m.got ∧ c ∉ w.m.rejected ∧ c ∉ w.m.arrived
  | .reset c => c ∈ sc.chunks ∧ w.m.canResetExcluded c

theorem mem_holdersOf : p ∈ holdersOf w c ↔ w.m.Held c p := by
  simp only [holdersOf, Held, setContains_iff]
  cases w.m.holders[c]? <;> simp

/-- The enumeration lists exactly the enabled actions. -/
theorem mem_enabled (a : Act) : a ∈ enabled sc w ↔ Guard sc w a := by
  have hleased : ∀ c p, w.m.Leased c p ↔ ∃ s, w.m.want[c]? = some s ∧ p ∈ s :=
    setContains_iff w.m.want
  cases a with
  | want c p => simp [enabled, Guard, mem_enabledWants]
  | deliver c p => simp [enabled, Guard, hleased, ← exists_and_right, and_assoc]
  | stall c p =>
    have hbudget : (sc.honest p = false ∨ 0 < w.tmo) ↔ (sc.honest p = true → 0 < w.tmo) := by
      cases sc.honest p <;> simp
    simp [enabled, Guard, hleased, hbudget, ← exists_and_right, and_assoc]
  | lose c p => simp [enabled, Guard, has, mem_holdersOf, and_assoc, and_left_comm]
  | gain c p => simp [enabled, Guard, has, mem_holdersOf, and_assoc]
  | new c => simp [enabled, Guard, has, isRejected, and_assoc]
  | reset c => simp [enabled, Guard]

/-! ## The invariant -/

/-- What holds of every reachable world. -/
structure Inv (sc : Scenario) (w : World) : Prop where
  safe : Safe w.m
  cfg_eq : w.m.cfg = sc.cfg
  arrived_sub : ∀ c ∈ w.m.arrived, c ∈ sc.chunks
  arrives : ∀ c ∈ sc.chunks, c ∈ w.m.arrived ∨ c ∈ sc.live
  unrejected : ∀ c, c ∉ w.m.rejected
  /-- Churn never strips a chunk of its last honest holder. -/
  supply : ∀ c ∈ sc.chunks, ∃ p, w.m.Held c p ∧ sc.honest p
  /-- With perfect attribution only byzantine peers are barred. -/
  attributed : sc.timeoutBudget = 0 → w.tmo = 0 ∧ ∀ c p, w.m.Barred c p → ¬ sc.honest p

/-- A machine to which nothing but holdings, priorities, sources and arrivals has happened. -/
structure Quiet (sc : Scenario) (m : PullState Cid) : Prop where
  safe : Safe m
  cfg_eq : m.cfg = sc.cfg
  ungot : ∀ c, c ∉ m.got
  unrejected : ∀ c, c ∉ m.rejected
  unbarred : ∀ c p, ¬ m.Barred c p

theorem quiet_new (sc : Scenario) : Quiet sc (PullState.new sc.cfg) where
  safe := safe_new sc.cfg
  cfg_eq := rfl
  ungot := by simp [PullState.new]
  unrejected := by simp [PullState.new]
  unbarred := by simp [PullState.new, Barred]

section Init

variable {m : PullState Cid}

theorem Quiet.observeHolder (hd : sc.cfg.dedup) (h : Quiet sc m) (c : Cid) (p : PeerId) :
    Quiet sc (m.observeHolder c p).1 where
  safe := h.safe.act (by rw [h.cfg_eq]; exact hd) (.observeHolder c p) trivial
  cfg_eq := h.cfg_eq
  ungot := h.ungot
  unrejected := h.unrejected
  unbarred := h.unbarred

theorem Quiet.setPrio (hd : sc.cfg.dedup) (h : Quiet sc m) (c : Cid) (depth : UInt8) :
    Quiet sc (m.setPrio c depth) where
  safe := h.safe.act (by rw [h.cfg_eq]; exact hd) (.setPrio c depth) trivial
  cfg_eq := h.cfg_eq
  ungot := h.ungot
  unrejected := h.unrejected
  unbarred := h.unbarred

theorem Quiet.setAssign (hd : sc.cfg.dedup) (h : Quiet sc m) (c : Cid) (p : PeerId) :
    Quiet sc (m.setAssign c p) where
  safe := h.safe.act (by rw [h.cfg_eq]; exact hd) (.setAssign c p) trivial
  cfg_eq := h.cfg_eq
  ungot := h.ungot
  unrejected := h.unrejected
  unbarred := h.unbarred

theorem Quiet.arriveHist (hd : sc.cfg.dedup) (h : Quiet sc m) (c : Cid) :
    Quiet sc (m.arriveHist c).1 where
  safe := h.safe.act (by rw [h.cfg_eq]; exact hd) (.arriveHist c) trivial
  cfg_eq := by simpa using h.cfg_eq
  ungot := by simpa using h.ungot
  unrejected := by simpa using h.unrejected
  unbarred := by simpa using h.unbarred

/-- One peer's initial holdings. -/
theorem held_observe_all (cs : List Cid) (p : PeerId) (m : PullState Cid) :
    (cs.foldl (fun m c => (m.observeHolder c p).1) m).Held c q ↔
      (c ∈ cs ∧ p = q) ∨ m.Held c q := by
  induction cs generalizing m with
  | nil => simp
  | cons d cs ih =>
    rw [List.foldl_cons, ih, held_observeHolder, List.mem_cons]
    constructor
    · rintro (⟨hc, rfl⟩ | ⟨rfl, rfl⟩ | h)
      · exact Or.inl ⟨Or.inr hc, rfl⟩
      · exact Or.inl ⟨Or.inl rfl, rfl⟩
      · exact Or.inr h
    · rintro (⟨rfl | hc, rfl⟩ | h)
      · exact Or.inr (Or.inl ⟨rfl, rfl⟩)
      · exact Or.inl ⟨hc, rfl⟩
      · exact Or.inr (Or.inr h)

/-- Everyone's initial holdings. -/
theorem held_holds (hs : List (PeerId × List Cid)) (m : PullState Cid) :
    (hs.foldl (fun m h => h.2.foldl (fun m c => (m.observeHolder c h.1).1) m) m).Held c q ↔
      (∃ h ∈ hs, c ∈ h.2 ∧ h.1 = q) ∨ m.Held c q := by
  induction hs generalizing m with
  | nil => simp
  | cons h hs ih => rw [List.foldl_cons, ih, held_observe_all]; simp [or_assoc, or_left_comm]

/-- The arrivals before the cursor. -/
theorem mem_arrived_hist (sc : Scenario) (cs : List Cid) (m : PullState Cid) (hg : ∀ c, c ∉ m.got)
    (hr : ∀ c, c ∉ m.rejected) :
    c ∈ (cs.foldl (fun m c => if sc.live.contains c then m else (m.arriveHist c).1) m).arrived ↔
      (c ∈ cs ∧ c ∉ sc.live) ∨ c ∈ m.arrived := by
  induction cs generalizing m with
  | nil => simp
  | cons d cs ih =>
    rw [List.foldl_cons]
    split
    · next hl =>
      rw [ih m hg hr, List.mem_cons]
      have hl : d ∈ sc.live := by simpa using hl
      grind
    · next hl =>
      rw [ih _ (by simpa using hg) (by simpa using hr), mem_arrived_arriveHist, List.mem_cons]
      have hl : d ∉ sc.live := by simpa using hl
      grind

theorem quiet_initMachine (hd : sc.cfg.dedup) : Quiet sc (initMachine sc) := by
  refine foldl_invariant (I := Quiet sc) _ _ (fun m hm c _ => ?_) <|
    foldl_invariant _ _ (fun m hm e _ => hm.setAssign hd e.1 e.2) <|
    foldl_invariant _ _ (fun m hm e _ => hm.setPrio hd e.1 e.2) <|
    foldl_invariant _ _ (fun m hm h _ =>
      foldl_invariant _ _ (fun m hm c _ => hm.observeHolder hd c h.1) hm) (quiet_new sc)
  split
  · exact hm
  · exact hm.arriveHist hd c

/-- Initially the holdings are the scenario's. -/
theorem held_initMachine (sc : Scenario) :
    (initMachine sc).Held c q ↔ ∃ h ∈ sc.holds, c ∈ h.2 ∧ h.1 = q := by
  have hempty : ¬ (PullState.new sc.cfg : PullState Cid).Held c q := by simp [PullState.new, Held]
  rw [initMachine, foldl_frame PullState.Held, foldl_frame PullState.Held,
    foldl_frame PullState.Held, held_holds]
  · simp [hempty]
  · simp
  · simp
  · intro m d _
    split <;> simp

/-- Initially everything but the live chunks has arrived. -/
theorem mem_arrived_initMachine (sc : Scenario) :
    c ∈ (initMachine sc).arrived ↔ c ∈ sc.chunks ∧ c ∉ sc.live := by
  -- the three folds before the arrivals store, reject and settle nothing
  have hframe : ∀ {τ : Type} (f : PullState Cid → τ),
      (∀ m c p, f (m.observeHolder c p).1 = f m) → (∀ m c d, f (m.setPrio c d) = f m) →
      (∀ m c p, f (m.setAssign c p) = f m) →
      f (sc.assign.foldl (fun m e => m.setAssign e.1 e.2)
          (sc.prio.foldl (fun m e => m.setPrio e.1 e.2)
            (sc.holds.foldl (fun m h => h.2.foldl (fun m c => (m.observeHolder c h.1).1) m)
              (PullState.new sc.cfg)))) = f (PullState.new sc.cfg) := by
    intro τ f ho hp ha
    rw [foldl_frame f _ _ (fun m e _ => ha m e.1 e.2), foldl_frame f _ _ (fun m e _ => hp m e.1 e.2),
      foldl_frame f _ _ (fun m h _ => foldl_frame f _ _ (fun m c _ => ho m c h.1) m)]
  have hgot := hframe PullState.got (by simp) (by simp) (by simp)
  have hrej := hframe PullState.rejected (by simp) (by simp) (by simp)
  have harr := hframe PullState.arrived (by simp) (by simp) (by simp)
  rw [initMachine, mem_arrived_hist sc sc.chunks _ (fun c => by rw [hgot]; simp [PullState.new])
    (fun c => by rw [hrej]; simp [PullState.new]), harr]
  simp [PullState.new]

theorem inv_init (h : sc.Positive) : Inv sc (init sc) := by
  have hq := quiet_initMachine h.dedup
  refine ⟨hq.safe, hq.cfg_eq, ?_, ?_, hq.unrejected, ?_, fun hb => ⟨hb, fun c p hbar => ?_⟩⟩
  · exact fun c hc => ((mem_arrived_initMachine sc).mp hc).1
  · intro c hc
    by_cases hl : c ∈ sc.live
    · exact Or.inr hl
    · exact Or.inl ((mem_arrived_initMachine sc).mpr ⟨hc, hl⟩)
  · intro c hc
    obtain ⟨e, he, hce, hh⟩ := h.supplied c hc
    exact ⟨e.1, (held_initMachine sc).mpr ⟨e, he, hce, rfl⟩, hh⟩
  · exact absurd hbar (hq.unbarred c p)

end Init

/-! ## What each action preserves -/

/-- The machine's part of an action. -/
def Act.call : Act → Action Cid
  | .want c p => .want c p
  | .deliver c p => .deliver c p
  | .stall c p => .stall c p
  | .lose c p => .loseHolder c p
  | .gain c p => .observeHolder c p
  | .new c => .arriveLive c
  | .reset c => .resetExcluded c

theorem apply_m (a : Act) : (apply sc w a).m = w.m.act a.call := by
  cases a <;> rfl

theorem Inv.apply (h : sc.Positive) (hi : Inv sc w) (a : Act) (ha : Guard sc w a) :
    Inv sc (apply sc w a) := by
  obtain ⟨hsafe, hcfg, hsub, harr, hrej, hsup, hatt⟩ := hi
  have hsafe' : Safe (Explore.apply sc w a).m := by
    rw [apply_m]
    exact hsafe.act (by rw [hcfg]; exact h.dedup) _ (by cases a <;> trivial)
  have hcfg' : (Explore.apply sc w a).m.cfg = sc.cfg := by
    rw [apply_m, act_cfg, hcfg]
  cases a with
  | want c p =>
    refine ⟨hsafe', hcfg', ?_, ?_, ?_, ?_, ?_⟩ <;>
      simp only [Explore.apply, wantFrom_frame] <;> assumption
  | deliver c p =>
    refine ⟨hsafe', hcfg', ?_, ?_, ?_, ?_, ?_⟩ <;>
      simp only [Explore.apply, deliver_frame] <;> assumption
  | stall c p =>
    refine ⟨hsafe', hcfg', ?_, ?_, ?_, ?_, ?_⟩ <;> simp only [Explore.apply, stall_frame]
    · exact hsub
    · exact harr
    · exact hrej
    · exact hsup
    · intro hb
      obtain ⟨htmo, hbar⟩ := hatt hb
      -- with no budget the staller is byzantine
      have hbyz : ¬ sc.honest p := fun hp => by
        have := ha.2.2 hp
        omega
      refine ⟨by simpa [hbyz] using htmo, fun d q hd => ?_⟩
      rcases (barred_stall w.m c d p q).mp hd with ⟨-, rfl, rfl⟩ | hd
      · exact hbyz
      · exact hbar d q hd
  | lose c p =>
    obtain ⟨-, -, -, -, r, hne, hr, hh⟩ := ha
    refine ⟨hsafe', hcfg', ?_, ?_, ?_, ?_, ?_⟩ <;> simp only [Explore.apply, loseHolder_frame]
    · exact hsub
    · exact harr
    · exact hrej
    · intro d hd
      by_cases hcd : c = d
      · subst hcd
        exact ⟨r, (held_loseHolder w.m c c p r).mpr ⟨fun he => hne he.2.symm, hr⟩, hh⟩
      · obtain ⟨q, hq, hh⟩ := hsup d hd
        exact ⟨q, (held_loseHolder w.m c d p q).mpr ⟨fun he => hcd he.1, hq⟩, hh⟩
    · exact hatt
  | gain c p =>
    refine ⟨hsafe', hcfg', ?_, ?_, ?_, ?_, ?_⟩ <;> simp only [Explore.apply, observeHolder_frame]
    · exact hsub
    · exact harr
    · exact hrej
    · intro d hd
      obtain ⟨q, hq, hh⟩ := hsup d hd
      exact ⟨q, (held_observeHolder w.m c d p q).mpr (Or.inr hq), hh⟩
    · exact hatt
  | new c =>
    refine ⟨hsafe', hcfg', ?_, ?_, ?_, ?_, ?_⟩ <;> simp only [Explore.apply, arriveLive_frame]
    · intro d hd
      rcases (mem_arrived_arriveLive w.m c d).mp hd with hd | ⟨rfl, -⟩
      · exact hsub d hd
      · exact h.live_sub c ha.1
    · intro d hd
      exact (harr d hd).imp (fun hd => (mem_arrived_arriveLive w.m c d).mpr (Or.inl hd)) id
    · exact hrej
    · exact hsup
    · exact hatt
  | reset c =>
    refine ⟨hsafe', hcfg', ?_, ?_, ?_, ?_, ?_⟩ <;> simp only [Explore.apply, resetExcluded_frame]
    · exact hsub
    · exact harr
    · exact hrej
    · exact hsup
    · intro hb
      obtain ⟨htmo, hbar⟩ := hatt hb
      exact ⟨htmo, fun d q hd => hbar d q ((barred_resetExcluded w.m c d q).mp hd).2⟩

theorem Inv.step (h : sc.Positive) (hi : Inv sc w) (hs : Step sc w w') : Inv sc w' := by
  obtain ⟨a, ha, rfl⟩ := hs
  exact hi.apply h a ((mem_enabled a).mp ha)

theorem Reachable.inv (h : sc.Positive) (hr : Reachable sc w) : Inv sc w :=
  invariant_of_reachable (fun _ _ hi hs => hi.step h hs) (inv_init h) hr

/-- The environment's checks pass where the invariant holds. -/
theorem Inv.checkEnvInvariants (h : sc.Positive) (hi : Inv sc w) :
    checkEnvInvariants sc w = .ok () := by
  have hm : w.m.checkInvariants = .ok () :=
    hi.safe.checkInvariants (by rw [hi.cfg_eq]; exact h.dedup)
  have hsupply : ∀ c ∈ sc.chunks, ∃ hs, w.m.holders[c]? = some hs ∧ ∃ p ∈ hs, sc.honest p := by
    intro c hc
    obtain ⟨p, hp, hh⟩ := hi.supply c hc
    obtain ⟨hs, hhs, hp⟩ := (setContains_iff w.m.holders c p).mp hp
    exact ⟨hs, hhs, p, hp, hh⟩
  have hbarred : sc.timeoutBudget = 0 →
      ∀ e ∈ w.m.excluded.toList, ∀ p ∈ e.2, ¬ sc.honest p := by
    intro hb e he p hp
    exact (hi.attributed hb).2 e.1 p
      ((setContains_iff_mem_toList w.m.excluded e.1 p).mpr ⟨e.2, he, hp⟩)
  unfold Explore.checkEnvInvariants
  rw [hm]
  change (if _ then _ else _) = _
  rw [if_neg, if_neg]
  · simp only [Bool.and_eq_true, List.any_eq_true, not_and, not_exists, beq_iff_eq,
      ExtTreeSet.mem_toList]
    exact fun hb e he p hp => hbarred hb e he p hp
  · simp only [List.any_eq_true, not_exists, not_and]
    intro c hc
    obtain ⟨hs, hhs, hany⟩ := hsupply c hc
    simpa [hhs, List.any_eq_true] using hany

/-! ## The rank -/

/-- What resets, deliveries, honest stalls, churn and arrivals use up. -/
noncomputable def budget (sc : Scenario) (w : World) : ℕ :=
  2 * w.tmo + count (sc.chunks.toFinset ×ˢ Finset.univ) (fun x => w.m.Barred x.1 x.2 ∧ sc.honest x.2)
    + w.chn + count sc.chunks.toFinset (· ∉ w.m.arrived) + count sc.chunks.toFinset (· ∉ w.m.got)

/-- What a byzantine stall uses up. -/
noncomputable def unbarred (sc : Scenario) (w : World) : ℕ :=
  count (sc.chunks.toFinset ×ˢ Finset.univ) (fun x => ¬ w.m.Barred x.1 x.2)

/-- What a claim uses up. -/
noncomputable def idle (sc : Scenario) (w : World) : ℕ :=
  count sc.chunks.toFinset (· ∉ w.m.want)

noncomputable def rank (sc : Scenario) (w : World) : ℕ ×ₗ ℕ ×ₗ ℕ :=
  toLex (budget sc w, toLex (unbarred sc w, idle sc w))

theorem rank_lt_of_budget (hb : budget sc w' < budget sc w) : rank sc w' < rank sc w :=
  Prod.Lex.toLex_lt_toLex.mpr (.inl hb)

theorem Inv.mem_chunks (hi : Inv sc w) {c : Cid} (hc : c ∈ w.m.arrived) : c ∈ sc.chunks.toFinset :=
  List.mem_toFinset.mpr (hi.arrived_sub c hc)

/-- A claim of an idle chunk. -/
theorem rank_want_lt (h : sc.Positive) (hi : Inv sc w) {c : Cid} {p : PeerId}
    (ha : w.m.claimable c p) : rank sc (apply sc w (.want c p)) < rank sc w := by
  obtain ⟨harr, -, -, -, -, hfree, -⟩ := (w.m.claimable_iff c p).mp ha
  have hfree := hfree (by rw [hi.cfg_eq]; exact h.dedup)
  have hidle : idle sc (apply sc w (.want c p)) < idle sc w := by
    refine count_lt c (hi.mem_chunks harr) hfree (fun hn => hn ?_) fun d _ hd hw => hd ?_
    · exact Leased.mem_want ((w.m.leased_wantFrom c c p p).mpr (Or.inl ⟨ha, rfl, rfl⟩))
    · obtain ⟨q, hq⟩ := (hi.safe.normal.want.mem_iff d).mp hw
      exact Leased.mem_want ((w.m.leased_wantFrom c d p q).mpr (Or.inr hq))
  have hbudget : budget sc (apply sc w (.want c p)) = budget sc w := by simp [budget, apply]
  have hunb : unbarred sc (apply sc w (.want c p)) = unbarred sc w := by simp [unbarred, apply]
  exact Prod.Lex.toLex_lt_toLex.mpr
    (Or.inr ⟨hbudget, Prod.Lex.toLex_lt_toLex.mpr (Or.inr ⟨hunb, hidle⟩)⟩)

theorem budget_deliver_lt (hi : Inv sc w) {c : Cid} {p : PeerId} (hl : w.m.Leased c p) :
    budget sc (apply sc w (.deliver c p)) < budget sc w := by
  have hgot : count sc.chunks.toFinset (· ∉ (w.m.deliver c p).1.got)
      < count sc.chunks.toFinset (· ∉ w.m.got) := by
    refine count_lt c (hi.mem_chunks (hi.safe.claims.arrived c p hl))
      (hi.safe.claims.unstored c p hl) ?_ ?_
    · simp [hl]
    · intro d _ hd hg
      exact hd ((w.m.mem_got_deliver c d p).mpr (Or.inr hg))
  simp only [budget, apply, deliver_frame]
  omega

/-- A stall under a lease bars the peer that held it. -/
theorem Inv.barred_stall (h : sc.Positive) (hi : Inv sc w) {c : Cid} {p : PeerId}
    (hl : w.m.Leased c p) (hf : w.m.cfg.failover) (d : Cid) (q : PeerId) :
    (w.m.stall c p).1.Barred d q ↔ c = d ∧ p = q ∨ w.m.Barred d q := by
  have hex : w.m.cfg.exclude := by rw [hi.cfg_eq]; exact h.exclude
  simp [hf, hex, hl]

/-- A stall of an honest peer uses up a timeout, and adds one bar at most. -/
theorem budget_stall_lt (h : sc.Positive) (hi : Inv sc w) {c : Cid} {p : PeerId}
    (ha : Guard sc w (.stall c p)) (hp : sc.honest p) :
    budget sc (apply sc w (.stall c p)) < budget sc w := by
  obtain ⟨hl, hf, htmo⟩ := ha
  have hbars : count (sc.chunks.toFinset ×ˢ Finset.univ)
        (fun x => (w.m.stall c p).1.Barred x.1 x.2 ∧ sc.honest x.2)
      ≤ count (sc.chunks.toFinset ×ˢ Finset.univ)
        (fun x => w.m.Barred x.1 x.2 ∧ sc.honest x.2) + 1 := by
    refine count_le_succ (c, p) fun x _ hx => ?_
    rcases (hi.barred_stall h hl hf x.1 x.2).mp hx.1 with ⟨hc, hq⟩ | hb
    · exact Or.inr (Prod.ext hc.symm hq.symm)
    · exact Or.inl ⟨hb, hx.2⟩
  have htmo := htmo hp
  simp only [budget, apply, stall_frame, hp, if_true]
  omega

/-- A stall of a byzantine peer bars it. -/
theorem rank_stall_lt (h : sc.Positive) (hi : Inv sc w) {c : Cid} {p : PeerId}
    (hl : w.m.Leased c p) (hf : w.m.cfg.failover) (hp : ¬ sc.honest p) :
    rank sc (apply sc w (.stall c p)) < rank sc w := by
  have hbar := hi.barred_stall h hl hf
  have hc := hi.mem_chunks (hi.safe.claims.arrived c p hl)
  have hbars : count (sc.chunks.toFinset ×ˢ Finset.univ)
        (fun x => (w.m.stall c p).1.Barred x.1 x.2 ∧ sc.honest x.2)
      = count (sc.chunks.toFinset ×ˢ Finset.univ)
        (fun x => w.m.Barred x.1 x.2 ∧ sc.honest x.2) := by
    refine count_congr fun x _ => ?_
    rw [hbar]
    constructor
    · rintro ⟨⟨-, rfl⟩ | hb, hx⟩
      · exact absurd hx hp
      · exact ⟨hb, hx⟩
    · exact fun hx => ⟨Or.inr hx.1, hx.2⟩
  have hunb : unbarred sc (apply sc w (.stall c p)) < unbarred sc w := by
    refine count_lt (c, p) (by simpa using hc) (hi.safe.claims.unbarred c p hl) ?_ ?_
    · exact fun hn => hn ((hbar c p).mpr (Or.inl ⟨rfl, rfl⟩))
    · exact fun x _ hx hb => hx ((hbar x.1 x.2).mpr (Or.inr hb))
  have hbudget : budget sc (apply sc w (.stall c p)) = budget sc w := by
    simp only [budget, apply, stall_frame, hp, hbars]
    simp
  exact Prod.Lex.toLex_lt_toLex.mpr
    (Or.inr ⟨hbudget, Prod.Lex.toLex_lt_toLex.mpr (Or.inl hunb)⟩)

theorem budget_new_lt (h : sc.Positive) {c : Cid} (ha : Guard sc w (.new c)) :
    budget sc (apply sc w (.new c)) < budget sc w := by
  obtain ⟨hl, hg, hr, harr⟩ := ha
  have hcount : count sc.chunks.toFinset (· ∉ (w.m.arriveLive c).1.arrived)
      < count sc.chunks.toFinset (· ∉ w.m.arrived) := by
    refine count_lt c (List.mem_toFinset.mpr (h.live_sub c hl)) harr ?_ ?_
    · simp [hg, hr]
    · exact fun d _ hd hm => hd ((w.m.mem_arrived_arriveLive c d).mpr (Or.inl hm))
  simp only [budget, apply, arriveLive_frame]
  omega

/-- The honest holder that supply keeps is among the bars a reset clears. -/
theorem budget_reset_lt (hi : Inv sc w) {c : Cid} (ha : Guard sc w (.reset c)) :
    budget sc (apply sc w (.reset c)) < budget sc w := by
  obtain ⟨hc, hreset⟩ := ha
  obtain ⟨p, hp, hh⟩ := hi.supply c hc
  have hbp := ((w.m.canResetExcluded_iff c).mp hreset).2.2.2.2.2 p hp
  have hbar : ∀ d q, (w.m.resetExcluded c).1.Barred d q ↔ c ≠ d ∧ w.m.Barred d q := by
    simp [hreset]
  have hcount : count (sc.chunks.toFinset ×ˢ Finset.univ)
        (fun x => (w.m.resetExcluded c).1.Barred x.1 x.2 ∧ sc.honest x.2)
      < count (sc.chunks.toFinset ×ˢ Finset.univ)
        (fun x => w.m.Barred x.1 x.2 ∧ sc.honest x.2) := by
    refine count_lt (c, p) (by simpa using hc) ⟨hbp, hh⟩ ?_ ?_
    · exact fun hn => ((hbar c p).mp hn.1).1 rfl
    · exact fun x _ hx => ⟨((hbar x.1 x.2).mp hx.1).2, hx.2⟩
  simp only [budget, apply, resetExcluded_frame]
  omega

/-- Every enabled action lowers the rank. -/
theorem rank_apply_lt (h : sc.Positive) (hi : Inv sc w) (a : Act) (ha : Guard sc w a) :
    rank sc (apply sc w a) < rank sc w := by
  cases a with
  | want c p => exact rank_want_lt h hi ha
  | deliver c p => exact rank_lt_of_budget (budget_deliver_lt hi ha.1)
  | stall c p =>
    by_cases hp : sc.honest p
    · exact rank_lt_of_budget (budget_stall_lt h hi ha hp)
    · exact rank_stall_lt h hi ha.1 ha.2.1 hp
  | lose c p =>
    have hchn := ha.1
    apply rank_lt_of_budget
    simp only [budget, apply, loseHolder_frame]
    omega
  | gain c p =>
    have hchn := ha.1
    apply rank_lt_of_budget
    simp only [budget, apply, observeHolder_frame]
    omega
  | new c => exact rank_lt_of_budget (budget_new_lt h ha)
  | reset c => exact rank_lt_of_budget (budget_reset_lt hi ha)

/-! ## Terminal worlds -/

/-- Where nothing is enabled every chunk is stored. -/
theorem stored_of_terminal (h : sc.Positive) (hi : Inv sc w) (ht : enabled sc w = []) :
    ∀ c ∈ sc.chunks, c ∈ w.m.got := by
  have hno : ∀ a, ¬ Guard sc w a := fun a ha => by
    simpa [ht] using (mem_enabled a).mpr ha
  have hunleased : ∀ c, c ∉ w.m.want := by
    intro c hc
    obtain ⟨p, hl⟩ := (hi.safe.normal.want.mem_iff c).mp hc
    by_cases hp : sc.honest p
    · exact hno (.deliver c p) ⟨hl, hp⟩
    · exact hno (.stall c p) ⟨hl, by rw [hi.cfg_eq]; exact h.failover, fun hp' => absurd hp' hp⟩
  have harrived : ∀ c ∈ sc.chunks, c ∉ w.m.got → c ∈ w.m.arrived := by
    intro c hc hg
    by_contra hn
    exact hno (.new c) ⟨(hi.arrives c hc).resolve_left hn, hg, hi.unrejected c, hn⟩
  have heligible : ∀ c ∈ sc.chunks, c ∉ w.m.got → ∃ p, w.m.Held c p ∧ ¬ w.m.Barred c p := by
    intro c hc hg
    by_contra hn
    push Not at hn
    obtain ⟨p, hp, -⟩ := hi.supply c hc
    exact hno (.reset c) ⟨hc, (w.m.canResetExcluded_iff c).mpr
      ⟨by rw [hi.cfg_eq]; exact h.resetOnExhaust, harrived c hc hg, hg, hunleased c,
        ⟨p, hn p hp⟩, hn⟩⟩
  by_contra hn
  push Not at hn
  obtain ⟨c₀, hc₀, hg₀⟩ := hn
  -- so some chunk is claimable
  obtain ⟨c, p, hcl⟩ := w.m.exists_claimable c₀ (by rw [hi.cfg_eq]; exact h.notSingleSource)
    (by rw [hi.cfg_eq]; exact h.enableLive) hunleased (harrived c₀ hc₀ hg₀)
    ((w.m.eligible_iff c₀).mpr ⟨hg₀, heligible c₀ hc₀ hg₀⟩)
  exact hno (.want c p) hcl

/-! ## The matrix -/

/-- The composite row: an omitter, a late arrival that is also the deepest, a chunk with one honest
holder, one misfire and one churn event. -/
def storm : Scenario where
  cfg := Config.production
  chunks := [1, 2, 3, 4]
  peers := [1, 2, 3, 4]
  holds := [(1, [1, 2, 4]), (2, [2, 3, 4]), (3, [3, 4]), (4, [1, 2, 3, 4])]
  byzantine := [4]
  live := [4]
  prio := [(1, 1), (2, 2), (3, 3), (4, 4)]
  assign := []
  timeoutBudget := 1
  churnBudget := 1

/-- A positive scenario of any size: every reachable world passes the checks, no run is infinite, no
run returns to a world it has left, and a world with no enabled action has every chunk stored. -/
theorem parity_positive (h : sc.Positive) :
    (∀ w, Reachable sc w → checkEnvInvariants sc w = .ok ())
      ∧ (∀ run : ℕ → World, run 0 = init sc → ¬ ∀ n, Step sc (run n) (run (n + 1)))
      ∧ (∀ w, Reachable sc w → ¬ Relation.TransGen (Step sc) w w)
      ∧ ∀ w, Reachable sc w → enabled sc w = [] →
          (∀ c ∈ sc.chunks, w.m.has c) ∧ ∀ c ∈ sc.live, w.m.has c := by
  have hstep : ∀ w w', Inv sc w → Step sc w w' → Inv sc w' := fun w w' hi hs => hi.step h hs
  have hrank : ∀ w w', Inv sc w → Step sc w w' → rank sc w' < rank sc w := by
    rintro w - hi ⟨a, ha, rfl⟩
    exact rank_apply_lt h hi a ((mem_enabled a).mp ha)
  refine ⟨fun w hr => (hr.inv h).checkEnvInvariants h, ?_, ?_, ?_⟩
  · exact fun run h0 => no_infinite_run (rank sc) hstep hrank run (h0 ▸ inv_init h)
  · exact fun w hr => not_transGen_self (rank sc) hstep hrank (hr.inv h)
  · intro w hr ht
    have hall := stored_of_terminal h (hr.inv h) ht
    exact ⟨fun c hc => by simpa [has] using hall c hc,
      fun c hc => by simpa [has] using hall c (h.live_sub c hc)⟩

/-- The composite row is positive: its initial world passes the checks and is never returned to. -/
theorem parity_positive_storm : checkEnvInvariants storm (init storm) = .ok ()
    ∧ ¬ Relation.TransGen (Step storm) (init storm) (init storm) := by
  have hpos : storm.Positive := by constructor <;> decide
  exact ⟨(parity_positive hpos).1 _ .refl, (parity_positive hpos).2.2.1 _ .refl⟩

end Melissi.Machine.Explore
