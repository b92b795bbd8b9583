import Melissi.Machine.Priority
import Melissi.Node.Handle

/-!
# The node is never idle while it owes a fetchable chunk

Three mechanisms can each disable a want: the bars, the deepest-first guard and the window cap. With
nothing in flight, a round first clears every set of bars that covers all holders; then some arrived
id with a holder left is deepest and claimable, and no budget has been spent: so the round claims.
-/

namespace Melissi.Node

open Melissi.Common Melissi.Machine Melissi.Machine.PullState Melissi.Settlement
open Std (ExtTreeMap ExtTreeSet)

variable {C : Type} [LinearOrder C]

/-- Every arrived id has a bin, so the reset pass visits it. -/
def Known (n : Node C) : Prop := ∀ c ∈ n.m.arrived, c ∈ n.binOf

/-- If an arrived id is missing and someone holds it, something is in flight. -/
def Busy (n : Node C) : Prop :=
  (∃ c ∈ n.m.arrived, c ∉ n.m.got ∧ ∃ p, n.m.Held c p) → ∃ c p, n.m.Leased c p

theorem mem_binOf_iff (n : Node C) (c : C) : c ∈ n.binOf ↔ ∃ b, n.binOf[c]? = some b := by
  rw [← ExtTreeMap.isSome_getElem?_iff_mem, Option.isSome_iff_exists]

/-! ## What keeps every arrived id known -/

theorem Known.round {n : Node C} (h : Known n) : Known n.round.1 := by
  intro c hc
  obtain ⟨hp, hc⟩ := (n.mem_arrived_round c).mp hc
  obtain ⟨b, hb⟩ := (n.mem_binOf_iff c).mp (h c hc)
  exact (mem_binOf_iff _ c).mpr ⟨b, (n.binOf_round c b).mpr ⟨hp, hb⟩⟩

theorem Known.answerOffer {n : Node C} (h : Known n) (k : PeerBin) (start : ℕ)
    (refs : List (ℕ × C)) (topmost : ℕ) : Known (n.answerOffer k start refs topmost) := by
  intro c hc
  rw [mem_binOf_iff, binOf_answerOffer]
  by_cases hr : c ∈ refs.map (·.2)
  · exact ⟨k.bin, if_pos hr⟩
  · rw [if_neg hr, ← mem_binOf_iff]
    rcases (n.mem_arrived_answerOffer k start refs topmost c).mp hc with hc | hc
    · exact h c hc
    · exact absurd hc.1 hr

/-- Outcomes only take ids out of the window. -/
theorem arrived_reported (n : Node C) (peer : PeerId) (outcomes : List (C × Outcome)) :
    ∀ c ∈ (n.reported peer outcomes).m.arrived, c ∈ n.m.arrived := by
  refine foldl_invariant (I := fun m => ∀ c ∈ m.arrived, c ∈ n.m.arrived) (report peer) outcomes
    (fun m hm e _ c hc => hm c ?_) (fun _ hc => hc)
  obtain ⟨d, o⟩ := e
  cases o with
  | delivered => simpa [report] using hc
  | missed => simpa [report] using hc
  | rejected => exact ((m.mem_arrived_reject d c).mp hc).2

theorem Known.handle {n : Node C} (h : Known n) (ev : Event C) : Known (n.handle ev).1 := by
  cases ev with
  | peerSeen p =>
    simp only [Node.handle]
    split <;> exact h
  | peerGone p =>
    rw [handle_peerGone]
    refine Known.round fun c hc => h c ?_
    simpa [departed, (losePeer_frame n.m p).2.2.1] using hc
  | cursorsResult peer cursors =>
    have ho := n.offered_cursorsResult peer cursors
    intro c hc
    rw [ho.binOf]
    rw [ho.m] at hc
    exact h c hc
  | offerResult peer bin start refs topmost =>
    rw [handle_offerResult]
    exact (h.answerOffer _ start refs topmost).round
  | tick =>
    have ho := n.offered_tick
    intro c hc
    rw [ho.binOf]
    rw [ho.m] at hc
    exact h c hc
  | fetchResult peer bin outcomes =>
    rw [handle_fetchResult]
    exact Known.round fun c hc => h c (n.arrived_reported peer outcomes c hc)

/-- A triple a round still knows is unsettled or stands in a window. -/
theorem windowed_round {n : Node C} {c : C} (hc : c ∈ n.round.1.binOf) (hs : Settled n.round.1 c) :
    ∃ (k : PeerBin) (b : ℕ), (n.round.1.log k).entries[b]? = some c := by
  obtain ⟨b, hb⟩ := (mem_binOf_iff _ c).mp hc
  obtain ⟨hpr, hb⟩ := (n.binOf_round c b).mp hb
  rw [Settled, n.settled_round.1, n.settled_round.2.1] at hs
  have hwin : c ∈ n.settle.1.windowed := by
    by_contra hno
    refine hpr ⟨(mem_binOf_iff _ c).mpr ⟨b, ?_⟩, ?_, hno⟩
    · rw [n.settle_frame.2.2.2.2.2.1]
      exact hb
    · rw [n.settle_frame.1]
      exact hs
  obtain ⟨k, l, i, hl, he⟩ := (mem_windowed _ c).mp hwin
  refine ⟨k, i, ?_⟩
  rw [log, logs_round, ← logs_settle, hl]
  exact he

/-! ## The round -/

/-- After the reset pass no unclaimed missing id has all its holders barred. -/
theorem unbarred_planned {n : Node C} (hr : n.m.cfg.resetOnExhaust) (hk : Known n) {c : C}
    (hw : c ∉ n.m.want) (hc : c ∈ n.planned.m.arrived) (hg : c ∉ n.planned.m.got)
    {p : PeerId} (hp : n.planned.m.Held c p) :
    ∃ p, n.planned.m.Held c p ∧ ¬ n.planned.m.Barred c p := by
  by_contra hn
  push Not at hn
  -- all holders are barred after the reset, so they were before it
  have hbar := fun q hq => (barred_reset n.settle.1.prune c q).mp (hn q hq)
  have hframe := n.settle.1.prune.reset_machine_frame
  have hpr := n.settle.1.prune_machine_frame
  have hm := n.settle_frame.1
  rw [planned] at hc hg hp hbar
  rw [hframe.2.2.2.2.1] at hc
  rw [hframe.2.2.2.2.2.1] at hg
  rw [hframe.2.2.2.1] at hp hbar
  refine (hbar p hp).2 ⟨?_, (canResetExcluded_iff _ c).mpr ⟨?_, hc, hg, ?_, ⟨p, (hbar p hp).1⟩,
    fun q hq => (hbar q hq).1⟩⟩
  · obtain ⟨hnp, ha⟩ := (mem_arrived_prune n.settle.1 c).mp hc
    rw [hm] at ha
    obtain ⟨b, hb⟩ := (n.mem_binOf_iff c).mp (hk c ha)
    exact (mem_binOf_iff _ c).mpr ⟨b, (binOf_prune n.settle.1 c b).mpr
      ⟨hnp, by rw [n.settle_frame.2.2.2.2.2.1]; exact hb⟩⟩
  · rw [hpr.1, hm]
    exact hr
  · rw [hpr.2.1, hm]
    exact hw

/-- A missing arrived triple that someone holds is leased after a round, unless the round has filled
the window of some key. -/
theorem leased_or_filled {n : Node C} (hs : ¬ n.m.cfg.singleSource) (hl : n.m.cfg.enableLive)
    (hr : n.m.cfg.resetOnExhaust) (hwin : 1 ≤ n.policy.window) (hk : Known n)
    (hn : Normalised n.m) {c : C} (hc : c ∈ n.round.1.m.arrived) (hg : c ∉ n.round.1.m.got)
    {p : PeerId} (hp : n.round.1.m.Held c p) : (∃ p, n.round.1.m.Leased c p)
      ∨ ∃ p b want, .fetch p b want ∈ n.round.2 ∧ n.policy.window ≤ want.length := by
  refine or_iff_not_imp_left.mpr fun hno => ?_
  push Not at hno
  obtain ⟨hinv, hend⟩ := n.planned.scheduled_spec
  have hcalls := n.calls_round
  have hfree : ∀ m : PullState C, Normalised m → (∀ p, ¬ m.Leased c p) → c ∉ m.want :=
    fun m hm hl hw => by
      obtain ⟨q, hq⟩ := (hm.want.mem_iff c).mp hw
      exact hl q hq
  have hwant : c ∉ n.m.want := hfree n.m hn fun q hq => hno q ((n.leased_round c q).mpr (.inl hq))
  -- after the reset some holder is not barred, and the pass bars nobody
  obtain ⟨q, hq, hbar⟩ := unbarred_planned hr hk hwant
    (by rw [← hinv.arrived, ← round_fst]; exact hc) (by rw [← hinv.got, ← round_fst]; exact hg)
    (p := p) (by rw [← hinv.held_eq, ← round_fst]; exact hp)
  have hopen : n.round.1.m.Open c q :=
    ⟨hc, by rw [round_fst, hinv.held_eq]; exact hq, hg, hno q,
      by rw [round_fst, hinv.barred_eq]; exact hbar, fun _ => hfree _ (hcalls.normal hn) hno,
      fun _ => by rw [hcalls.cfg_eq]; exact hl⟩
  obtain ⟨d, r, hcl⟩ := exists_claimable_of_open (by rw [hcalls.cfg_eq]; exact hs)
    (by rw [hcalls.cfg_eq]; exact hl) ⟨c, q, hopen⟩
  -- what is claimable when the pass ends has no budget left
  have hdone : (d, r) ∉ n.planned.scheduled.enabled := by
    rw [hend]
    exact List.not_mem_nil
  rw [round_fst] at hcl
  rw [Sched.mem_enabled, and_iff_right hcl, hinv.committed, not_lt, hinv.policy,
    n.planned_frame.1] at hdone
  exact ⟨r, _, _, (n.fetch_mem_round r _ _).mpr ⟨List.ne_nil_of_length_pos (hwin.trans hdone), rfl⟩,
    hdone⟩

/-- A round that leaves nothing in flight leaves nothing fetchable. -/
theorem Busy.round {n : Node C} (hs : ¬ n.m.cfg.singleSource) (hl : n.m.cfg.enableLive)
    (hr : n.m.cfg.resetOnExhaust) (hwin : 1 ≤ n.policy.window) (hk : Known n)
    (hn : Normalised n.m) : Busy n.round.1 := by
  rintro ⟨c, hc, hg, p, hp⟩
  by_contra hno
  push Not at hno
  obtain ⟨hinv, hend⟩ := n.planned.scheduled_spec
  rw [round_fst] at hc hg hp hno
  -- no lease after the pass: none before, and no batch
  have hbatch : ∀ d q, ¬ n.planned.m.Leased d q ∧ d ∉ n.planned.scheduled.batch ⟨q, n.planned.bin d⟩ :=
    fun d q => not_or.mp ((hinv.leased d q).not.mp (hno d q))
  have hwant : ∀ m : PullState C, Normalised m → (∀ d q, ¬ m.Leased d q) → ∀ d, d ∉ m.want := by
    intro m hm hfree d hd
    obtain ⟨q, hq⟩ := (hm.want.mem_iff d).mp hd
    exact hfree d q hq
  have hfree : ∀ d, d ∉ n.m.want := hwant n.m hn fun d q => by
    rw [← n.planned_machine_frame.2.2.1]
    exact (hbatch d q).1
  have hcalls : Calls n.m n.planned.scheduled.n.m := n.calls_planned.trans hinv.calls
  have hnorm := hcalls.normal hn
  have hcfg := hcalls.cfg_eq
  rw [hinv.arrived] at hc
  rw [hinv.got] at hg
  rw [hinv.held_eq] at hp
  obtain ⟨q, hq, hbq⟩ := unbarred_planned hr hk (hfree c) hc hg hp
  obtain ⟨d, r, hcl⟩ := exists_claimable n.planned.scheduled.n.m c (by rw [hcfg]; exact hs)
    (by rw [hcfg]; exact hl) (hwant _ hnorm hno) (by rw [hinv.arrived]; exact hc)
    ((eligible_iff _ c).mpr ⟨by rw [hinv.got]; exact hg, q, by rw [hinv.held_eq]; exact hq,
      by rw [hinv.barred_eq]; exact hbq⟩)
  -- nothing was committed, so the window has budget for the claim
  have hempty : ∀ k, n.planned.scheduled.batch k = [] := by
    intro k
    refine List.eq_nil_iff_forall_not_mem.mpr fun e he => (hbatch e k.peer).2 ?_
    rw [(hinv.fresh k e he).1]
    exact he
  have hen : (d, r) ∈ n.planned.scheduled.enabled := by
    refine (Sched.mem_enabled _ d r).mpr ⟨hcl, ?_⟩
    rw [hinv.committed, hempty, hinv.policy, n.planned_frame.1]
    exact hwin
  rw [hend] at hen
  cases hen

/-! ## Runs -/

/-- What every event keeps. -/
structure Lively (n : Node C) : Prop where
  notSingleSource : ¬ n.m.cfg.singleSource
  enableLive : n.m.cfg.enableLive
  resetOnExhaust : n.m.cfg.resetOnExhaust
  window : 1 ≤ n.policy.window
  known : Known n
  normal : Normalised n.m
  busy : Busy n

theorem Lively.handle {n : Node C} (h : Lively n) (ev : Event C) : Lively (n.handle ev).1 := by
  obtain ⟨hs, hl, hr, hwin, hk, hn, hb⟩ := h
  have hcalls := n.calls_handle ev
  refine ⟨by rw [hcalls.cfg_eq]; exact hs, by rw [hcalls.cfg_eq]; exact hl,
    by rw [hcalls.cfg_eq]; exact hr, by rw [policy_handle]; exact hwin, hk.handle ev,
    hcalls.normal hn, ?_⟩
  cases ev with
  | peerSeen p =>
    simp only [Node.handle]
    split <;> exact hb
  | peerGone p =>
    rw [handle_peerGone]
    have hcalls := calls_losePeer n.m p
    exact Busy.round (by rw [departed, hcalls.cfg_eq]; exact hs)
      (by rw [departed, hcalls.cfg_eq]; exact hl) (by rw [departed, hcalls.cfg_eq]; exact hr) hwin
      (fun c hc => hk c (by simpa [departed, (losePeer_frame n.m p).2.2.1] using hc))
      (hcalls.normal hn)
  | cursorsResult peer cursors =>
    rw [Busy, (n.offered_cursorsResult peer cursors).m]
    exact hb
  | offerResult peer bin start refs topmost =>
    rw [handle_offerResult]
    have hcalls := n.calls_answerOffer ⟨peer, bin⟩ start refs topmost
    exact Busy.round (by rw [hcalls.cfg_eq]; exact hs) (by rw [hcalls.cfg_eq]; exact hl)
      (by rw [hcalls.cfg_eq]; exact hr)
      (by rw [(n.answerOffer_frame ⟨peer, bin⟩ start refs topmost).1]; exact hwin)
      (hk.answerOffer _ start refs topmost) (hcalls.normal hn)
  | tick =>
    rw [Busy, n.offered_tick.m]
    exact hb
  | fetchResult peer bin outcomes =>
    rw [handle_fetchResult]
    have hcalls : Calls n.m (n.reported peer outcomes).m :=
      Calls.foldl _ outcomes (calls_report peer) n.m
    exact Busy.round (by rw [hcalls.cfg_eq]; exact hs) (by rw [hcalls.cfg_eq]; exact hl)
      (by rw [hcalls.cfg_eq]; exact hr) hwin
      (fun c hc => hk c (n.arrived_reported peer outcomes c hc)) (hcalls.normal hn)

theorem lively_start (radius : Bin) {policy : Policy} (hw : 1 ≤ policy.window) (held : List C) :
    Lively (start Config.production radius policy held) := by
  have hf := start_frame Config.production radius policy held
  have hm := start_machine_frame Config.production radius policy held
  refine ⟨by rw [hm.1]; decide, by rw [hm.1]; rfl, by rw [hm.1]; rfl, by rw [hf.1]; exact hw,
    ?_, normal_start _ _ _ _, ?_⟩
  · intro c hc
    rw [hm.2.2.2.2.1] at hc
    simp at hc
  · rintro ⟨c, hc, -⟩
    rw [hm.2.2.2.2.1] at hc
    simp at hc

/-- After every call of every run in production, a missing arrived triple that someone holds means a
lease in flight: neither the bars, nor the deepest-first guard, nor the window cap leaves the node
idle. -/
theorem never_idle (radius : Bin) {policy : Policy} (hw : 1 ≤ policy.window) (held : List C)
    (evs : List (Event C)) :
    let n := ((start Config.production radius policy held).run evs).1
    (∃ c ∈ n.m.arrived, c ∉ n.m.got ∧ ∃ p, n.m.Held c p) → ∃ c p, n.m.Leased c p :=
  (feed_invariant Node.handle (I := Lively) evs (fun _ h ev _ => h.handle ev)
    (lively_start radius hw held)).busy

theorem never_idle_offered : ∃ c p, ((start Config.production 0 Policy.shipped []).run
    [.peerSeen 1, .cursorsResult 1 [(1, 5)], .offerResult 1 1 1 [(1, 7)] 1]).1.m.Leased (c : ℕ) p :=
  never_idle 0 (by decide) [] _ ⟨7, by decide +kernel, by decide +kernel, 1, by decide +kernel⟩

end Melissi.Node
