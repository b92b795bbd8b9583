import Melissi.Node.Schedule

/-!
# Failover does not turn back

A peer is barred for a triple when it misses it while it holds the lease, and the bars of a triple are
cleared together: when every holder is barred, or when the triple is settled and forgotten. So between
a miss and the next fetch from the same peer lies a point at which every holder had missed.
-/

namespace Melissi.Node

open Melissi.Common Melissi.Machine Melissi.Machine.PullState Melissi.Settlement
open Std (ExtTreeMap ExtTreeSet)

variable {C : Type} [LinearOrder C]

/-! ## Misses and bars in one call -/

/-- In this call `p` answers that it missed `c`, while it holds the lease on it. -/
def Misses (c : C) (p : PeerId) (n : Node C) : Event C → Prop
  | .fetchResult q _ outcomes => q = p ∧ ∃ pre post, outcomes = pre ++ (c, .missed) :: post
      ∧ (pre.foldl (report p) n.m).Leased c p
  | _ => False

/-- The round of this call clears the bars of `c`: some are there before it, and none after it. -/
def Clears (c : C) (n : Node C) (ev : Event C) : Prop :=
  (∃ p, (n.ingested ev).m.Barred c p) ∧ ∀ p, ¬ (n.handle ev).1.m.Barred c p

/-- The outcomes of a fetch bar a peer that misses under its lease, and nobody else. -/
theorem barred_foldl_report {peer : PeerId} {m : PullState C} (hcfg : m.cfg = Config.production)
    (outcomes : List (C × Outcome)) (c : C) (p : PeerId) :
    (outcomes.foldl (report peer) m).Barred c p ↔ m.Barred c p ∨ peer = p
      ∧ ∃ pre post, outcomes = pre ++ (c, .missed) :: post ∧ (pre.foldl (report p) m).Leased c p := by
  induction outcomes generalizing m with
  | nil => simp
  | cons e outcomes ih =>
    have hcfg' : (report peer m e).cfg = Config.production := (report_frame peer m e).1.trans hcfg
    have hstep : (report peer m e).Barred c p ↔
        m.Barred c p ∨ peer = p ∧ e = (c, .missed) ∧ m.Leased c p := by
      obtain ⟨d, o⟩ := e
      cases o with
      | delivered => simp [report]
      | rejected => simp [report]
      | missed =>
        have hf : m.cfg.failover = true ∧ m.cfg.exclude = true := by rw [hcfg]; decide
        rw [report, barred_stall]
        simp only [hf, true_and, Prod.mk.injEq, and_true]
        constructor
        · rintro (⟨hl, rfl, rfl⟩ | hb)
          · exact .inr ⟨rfl, rfl, hl⟩
          · exact .inl hb
        · rintro (hb | ⟨rfl, rfl, hl⟩)
          · exact .inr hb
          · exact .inl ⟨hl, rfl, rfl⟩
    rw [List.foldl_cons, ih hcfg', hstep, or_assoc, ← and_or_left]
    refine or_congr_right (and_congr_right fun hp => ?_)
    subst hp
    constructor
    · rintro (⟨rfl, hl⟩ | ⟨pre, post, rfl, hl⟩)
      · exact ⟨[], outcomes, rfl, hl⟩
      · exact ⟨e :: pre, post, rfl, hl⟩
    · rintro ⟨pre, post, heq, hl⟩
      cases pre with
      | nil =>
        obtain ⟨rfl, rfl⟩ := List.cons.inj heq
        exact .inl ⟨rfl, hl⟩
      | cons e' pre =>
        obtain ⟨rfl, rfl⟩ := List.cons.inj heq
        exact .inr ⟨pre, post, rfl, hl⟩

/-- What an event ingests bars a peer that misses under its lease, and nobody else. -/
theorem barred_ingested {n : Node C} (hcfg : n.m.cfg = Config.production) (ev : Event C) (c : C)
    (p : PeerId) : (n.ingested ev).m.Barred c p ↔ n.m.Barred c p ∨ Misses c p n ev := by
  cases ev with
  | peerGone q =>
    have hframe : (n.departed q).m.Barred = n.m.Barred := (losePeer_frame n.m q).2.1
    rw [ingested, hframe]
    exact (or_iff_left id).symm
  | offerResult peer bin start refs topmost =>
    rw [ingested, (n.answerOffer_machine_frame _ start refs topmost).2.1]
    exact (or_iff_left id).symm
  | fetchResult peer bin outcomes => exact barred_foldl_report hcfg outcomes c p
  | _ => exact (or_iff_left id).symm

/-- The round on `n` clears the bars of `c`: it forgets `c`, or finds every holder barred. -/
def RoundClears (n : Node C) (c : C) : Prop :=
  n.RoundPruned c ∨ c ∈ n.settle.1.prune.binOf ∧ n.settle.1.prune.m.canResetExcluded c

theorem barred_planned (n : Node C) (c : C) (p : PeerId) :
    n.planned.m.Barred c p ↔ n.m.Barred c p ∧ ¬ n.RoundClears c := by
  rw [planned, barred_reset, barred_prune, n.settle_frame.1, RoundClears, RoundPruned, not_or]
  tauto

theorem barred_round (n : Node C) (c : C) (p : PeerId) :
    n.round.1.m.Barred c p ↔ n.m.Barred c p ∧ ¬ n.RoundClears c := by
  rw [round_fst, n.planned.scheduled_spec.1.barred_eq, barred_planned]

/-- A bar that is gone after a call was cleared with all others of its triple. -/
theorem clears_of_gone {n : Node C} {ev : Event C} {c : C} {p : PeerId}
    (h : (n.ingested ev).m.Barred c p) (hgone : ¬ (n.handle ev).1.m.Barred c p) :
    Clears c n ev ∧ (n.ingested ev).RoundClears c := by
  by_cases hr : endsInRound ev
  · rw [n.handle_eq_round hr, barred_round, not_and, not_not] at hgone
    refine ⟨⟨⟨p, h⟩, fun q => ?_⟩, hgone h⟩
    rw [n.handle_eq_round hr, barred_round]
    exact fun hq => hq.2 (hgone h)
  · rw [(n.quiet_handle hr).m] at hgone
    rw [n.ingested_of_quiet hr] at h
    exact absurd h hgone

/-- A call leaves no bar that its ingestion did not leave. -/
theorem barred_of_handle {n : Node C} {ev : Event C} {c : C} {p : PeerId}
    (h : (n.handle ev).1.m.Barred c p) : (n.ingested ev).m.Barred c p := by
  by_cases hr : endsInRound ev
  · rw [n.handle_eq_round hr, barred_round] at h
    exact h.1
  · rw [(n.quiet_handle hr).m] at h
    rwa [n.ingested_of_quiet hr]

/-- What a round fetches is fetched from a peer that is not barred. -/
theorem unbarred_fetched {n : Node C} {p : PeerId} {b : Bin} {c : C}
    (h : c ∈ n.planned.fetched ⟨p, b⟩) : ¬ n.planned.m.Barred c p := by
  obtain ⟨picks, hturns, hloop⟩ := Sched.loop_turns (s := ⟨n.planned, ∅, ∅⟩)
    (holderPairs n.planned.m).length (List.length_filter_le _ _)
  have hinv := n.planned.scheduled_spec.1
  have hb := (mem_fetched h).1
  have hleased : n.planned.scheduled.n.m.Leased c p := (hinv.leased c p).mpr (.inr (hb ▸ h))
  have hnew : ¬ n.planned.m.Leased c p := by
    rw [n.planned_machine_frame.2.2.1]
    exact (mem_fetched h).2.1
  rw [scheduled, hloop, Sched.leased_after hturns] at hleased
  obtain ⟨pre, post, rfl⟩ := List.append_of_mem (hleased.resolve_left hnew)
  obtain ⟨hcl, -⟩ := (Sched.mem_enabled _ _ _).mp hturns.picked.enabled
  have hbar := ((claimable_iff _ _ _).mp hcl).2.2.2.2.1
  rwa [((Sched.inv_start n.planned).after hturns).barred_eq] at hbar

/-! ## The calls of a run -/

/-- The node before the `i`-th call of a run. -/
def before (n : Node C) (evs : List (Event C)) (i : ℕ) : Node C := (n.run (evs.take i)).1

/-- The `i`-th call of a run from `n` is as `P` says. -/
def At (n : Node C) (evs : List (Event C)) (i : ℕ) (P : Node C → Event C → Prop) : Prop :=
  ∃ ev, evs[i]? = some ev ∧ P (n.before evs i) ev

/-- By the round of the `j`-th call, `p` has missed `c` under its lease since the bars of `c` were last
cleared. -/
def MissedSince (n : Node C) (evs : List (Event C)) (c : C) (p : PeerId) (j : ℕ) : Prop :=
  ∃ i ≤ j, n.At evs i (Misses c p) ∧ ∀ k, i ≤ k → k < j → ¬ n.At evs k (Clears c)

theorem before_succ {n : Node C} {evs : List (Event C)} {i : ℕ} {ev : Event C}
    (h : evs[i]? = some ev) : n.before evs (i + 1) = ((n.before evs i).handle ev).1 := by
  rw [before, List.take_add_one, h, Option.toList_some, run_snoc_fst, before]

theorem at_iff {n : Node C} {evs : List (Event C)} {i : ℕ} {P : Node C → Event C → Prop}
    {ev : Event C} (h : evs[i]? = some ev) : n.At evs i P ↔ P (n.before evs i) ev := by
  rw [At, h]
  simp

/-! ## The history of the bars -/

section Run

variable {n : Node C} {evs : List (Event C)}

theorem before_add (i k : ℕ) : n.before evs (i + k) = (n.before evs i).before (evs.drop i) k := by
  rw [before, before, before, List.take_add, run, run, run, feed_append_fst]

theorem calls_run (n : Node C) (evs : List (Event C)) : Calls n.m (n.run evs).1.m :=
  feed_invariant Node.handle (I := fun n' => Calls n.m n'.m) evs
    (fun n' h ev _ => h.trans (n'.calls_handle ev)) .refl

/-- The machine moves by its own calls from one call of a run to a later one. -/
theorem calls_between {i j : ℕ} (h : i ≤ j) : Calls (n.before evs i).m (n.before evs j).m := by
  obtain ⟨k, rfl⟩ := Nat.exists_eq_add_of_le h
  rw [before_add]
  exact calls_run _ _

theorem config_before (hcfg : n.m.cfg = Config.production) (i : ℕ) :
    (n.before evs i).m.cfg = Config.production :=
  (calls_run n _).cfg_eq.trans hcfg

/-- A peer that is barred has missed under its lease, and the bars have not been cleared since. -/
theorem missed_of_barred (hcfg : n.m.cfg = Config.production) (hbar : ∀ c p, ¬ n.m.Barred c p)
    {c : C} {p : PeerId} (k : ℕ) (h : (n.before evs k).m.Barred c p) :
    ∃ i < k, n.At evs i (Misses c p) ∧ ∀ k', i ≤ k' → k' < k → ¬ n.At evs k' (Clears c) := by
  induction k with
  | zero => exact absurd h (hbar c p)
  | succ k ih =>
    cases hev : evs[k]? with
    | none =>
      -- the run is over: nothing is called any more
      have hsame : n.before evs (k + 1) = n.before evs k := by
        rw [before, List.take_add_one, hev, Option.toList_none, List.append_nil, before]
      rw [hsame] at h
      obtain ⟨i, hi, hmiss, hno⟩ := ih h
      refine ⟨i, by omega, hmiss, fun k' hik hk => ?_⟩
      rcases Nat.lt_succ_iff_lt_or_eq.mp hk with hk | rfl
      · exact hno k' hik hk
      · rintro ⟨ev, hev', -⟩
        rw [hev] at hev'
        cases hev'
    | some ev =>
      rw [before_succ hev] at h
      have hkept : ¬ n.At evs k (Clears c) := by
        rw [at_iff hev]
        exact fun hclear => hclear.2 p h
      rcases (barred_ingested (config_before hcfg k) ev c p).mp (barred_of_handle h) with hold | hmiss
      · obtain ⟨i, hi, hmiss, hno⟩ := ih hold
        refine ⟨i, by omega, hmiss, fun k' hik hk => ?_⟩
        rcases Nat.lt_succ_iff_lt_or_eq.mp hk with hk | rfl
        · exact hno k' hik hk
        · exact hkept
      · refine ⟨k, by omega, (at_iff hev).mpr hmiss, fun k' hik hk => ?_⟩
        obtain rfl : k' = k := by omega
        exact hkept

/-- The same by the round of a call. -/
theorem missedSince_of_barred (hcfg : n.m.cfg = Config.production)
    (hbar : ∀ c p, ¬ n.m.Barred c p) {c : C} {p : PeerId} {j : ℕ} {ev : Event C}
    (hev : evs[j]? = some ev) (h : ((n.before evs j).ingested ev).m.Barred c p) :
    n.MissedSince evs c p j := by
  rcases (barred_ingested (config_before hcfg j) ev c p).mp h with hold | hmiss
  · obtain ⟨i, hi, hmiss, hno⟩ := missed_of_barred hcfg hbar j hold
    exact ⟨i, hi.le, hmiss, hno⟩
  · exact ⟨j, le_rfl, (at_iff hev).mpr hmiss, fun k hik hk => absurd hk (by omega)⟩

/-- After a miss the peer stays barred, until some round clears the bars. -/
theorem barred_until_cleared (hcfg : n.m.cfg = Config.production) {c : C} {p : PeerId} {i : ℕ}
    (hmiss : n.At evs i (Misses c p)) (l : ℕ) (hil : i ≤ l) {ev : Event C}
    (hev : evs[l]? = some ev) : ((n.before evs l).ingested ev).m.Barred c p ∨
      ∃ j ev', i ≤ j ∧ j < l ∧ evs[j]? = some ev' ∧ Clears c (n.before evs j) ev'
        ∧ ((n.before evs j).ingested ev').RoundClears c := by
  induction l, hil using Nat.le_induction generalizing ev with
  | base => exact .inl ((barred_ingested (config_before hcfg i) ev c p).mpr
      (.inr ((at_iff hev).mp hmiss)))
  | succ l hil ih =>
    obtain ⟨ev', hev'⟩ : ∃ ev', evs[l]? = some ev' := by
      have hlt := (List.getElem?_eq_some_iff.mp hev).1
      exact ⟨evs[l], List.getElem?_eq_getElem (by omega)⟩
    rcases ih hev' with hb | ⟨j, ev'', hij, hjl, h⟩
    · by_cases hgone : ((n.before evs l).handle ev').1.m.Barred c p
      · refine .inl ((barred_ingested (config_before hcfg (l + 1)) ev c p).mpr (.inl ?_))
        rwa [before_succ hev']
      · exact .inr ⟨l, ev', hil, by omega, hev', clears_of_gone hb hgone⟩
    · exact .inr ⟨j, ev'', hij, by omega, h⟩

/-- Where a round clears the bars of a triple that is not settled, every holder is barred. -/
theorem barred_of_clears {n : Node C} {c : C} (h : n.RoundClears c) (hs : ¬ Settled n c) {q : PeerId}
    (hq : n.m.Held c q) : n.m.Barred c q := by
  have hkept : ¬ n.RoundPruned c := by
    intro hp
    have hset := hp.2.1
    rw [n.settle_frame.1] at hset
    exact hs hset
  obtain ⟨-, hreset⟩ := h.resolve_left hkept
  have hall := ((canResetExcluded_iff _ c).mp hreset).2.2.2.2.2
  have hheld : n.settle.1.prune.m.Held c q := by
    rw [held_prune, n.settle_frame.1]
    exact ⟨hkept, hq⟩
  have hb := (barred_prune n.settle.1 c q).mp (hall q hheld)
  rw [n.settle_frame.1] at hb
  exact hb.2

/-- A settled triple is not fetched in this call, nor in a later one. -/
theorem not_settled_of_fetched (hrej : ∀ c ∈ n.m.arrived, c ∉ n.m.rejected) {j l : ℕ} (hjl : j ≤ l)
    {ev ev' : Event C} (hev : evs[j]? = some ev) (hev' : evs[l]? = some ev') {c : C} {p : PeerId}
    {b : Bin} (hf : c ∈ ((n.before evs l).ingested ev').planned.fetched ⟨p, b⟩) :
    ¬ Settled ((n.before evs j).ingested ev) c := by
  obtain ⟨-, -, -, harr, hgot⟩ := mem_fetched hf
  have hcalls : Calls ((n.before evs j).ingested ev).m ((n.before evs l).ingested ev').m := by
    rcases Nat.eq_or_lt_of_le hjl with rfl | hlt
    · obtain rfl := Option.some.inj (hev.symm.trans hev')
      exact .refl
    · have hstep : Calls ((n.before evs j).ingested ev).m (n.before evs (j + 1)).m := by
        rw [before_succ hev]
        by_cases hr : endsInRound ev
        · rw [handle_eq_round _ hr]
          exact calls_round _
        · have hsame : (n.before evs j).ingested ev = n.before evs j := by
            cases ev <;> first | rfl | exact absurd rfl hr
          rw [(quiet_handle _ hr).m, hsame]
      exact (hstep.trans (calls_between hlt)).trans (calls_ingested _ ev')
  have hall : Calls n.m ((n.before evs l).ingested ev').m :=
    (calls_run n (evs.take l)).trans (calls_ingested _ ev')
  have hunrej := hall.unrejected hrej
  rintro (hg | hr)
  · exact hgot (hcalls.settled_mono.1 c hg)
  · exact hunrej c ((mem_arrived_planned _ c).mp harr).2 (hcalls.settled_mono.2 c hr)

end Run

/-- Failover does not turn back to a peer that missed. When a fetch of `c` from `p` is answered as missed
under the lease, and this call or a later one fetches `c` from `p` again, then in some call from the one
to the other the round clears the bars of `c`, and by then every holder had itself missed `c` under a
lease since they were last cleared. And only such a miss bars a peer. -/
theorem no_regrab (radius : Bin) (policy : Policy) (held : List C) (evs : List (Event C)) (c : C)
    (p : PeerId) :
    let n := start Config.production radius policy held
    (∀ i l b want, n.At evs i (Misses c p) → i ≤ l →
        n.At evs l (fun n ev => .fetch p b want ∈ (n.handle ev).2) → c ∈ want →
        ∃ j, i ≤ j ∧ j ≤ l ∧ n.At evs j fun n' ev => Clears c n' ev
          ∧ ∀ q, (n'.ingested ev).m.Held c q → n.MissedSince evs c q j)
      ∧ ∀ k, (n.before evs k).m.Barred c p →
        ∃ i < k, n.At evs i (Misses c p) ∧ ∀ k', i ≤ k' → k' < k → ¬ n.At evs k' (Clears c) := by
  intro n
  obtain ⟨hcfg, -, -, hexcl, harr, hrejected, -⟩ :=
    start_machine_frame Config.production radius policy held
  have hbar : ∀ c p, ¬ n.m.Barred c p := by
    intro d q
    rw [Barred, hexcl]
    simp
  have hrej : ∀ c ∈ n.m.arrived, c ∉ n.m.rejected := by
    intro d _
    rw [hrejected]
    simp
  refine ⟨?_, fun k hk => missed_of_barred hcfg hbar k hk⟩
  rintro i l b want hmiss hil ⟨ev, hev, hfetch⟩ hc
  obtain ⟨-, -, rfl⟩ := (fetch_mem_handle _ ev p b want).mp hfetch
  have hclear : ∃ j ev', i ≤ j ∧ j ≤ l ∧ evs[j]? = some ev' ∧ Clears c (n.before evs j) ev'
      ∧ ((n.before evs j).ingested ev').RoundClears c := by
    rcases barred_until_cleared hcfg hmiss l hil hev with hb | ⟨j, ev', hij, hjl, h⟩
    · -- the bar stood at the last call, so its own round clears it before it fetches
      have hno := unbarred_fetched hc
      rw [barred_planned, not_and, not_not] at hno
      refine ⟨l, ev, hil, le_rfl, hev, (clears_of_gone hb ?_).1, hno hb⟩
      have hround := ((fetch_mem_handle _ ev p b _).mp hfetch).1
      rw [handle_eq_round _ hround, barred_round, not_and, not_not]
      exact fun _ => hno hb
    · exact ⟨j, ev', hij, hjl.le, h⟩
  obtain ⟨j, ev', hij, hjl, hev', hclears, hround⟩ := hclear
  have hunsettled := not_settled_of_fetched hrej hjl hev' hev hc
  refine ⟨j, hij, hjl, (at_iff hev').mpr ⟨hclears, fun q hq => ?_⟩⟩
  exact missedSince_of_barred hcfg hbar hev' (barred_of_clears hround hunsettled hq)

/-- One of two holders misses, then the other does, and that call asks the first again. -/
def retried : List (Event ℕ) :=
  [.peerSeen 1, .peerSeen 2, .offerResult 1 0 1 [(1, 7)] 1, .offerResult 2 0 1 [(1, 7)] 1,
    .fetchResult 1 0 [(7, .missed)], .fetchResult 2 0 [(7, .missed)]]

theorem no_regrab_retried : ∃ j, 4 ≤ j ∧ j ≤ 5 ∧
    (start Config.production 0 Policy.shipped []).At retried j fun n' ev => Clears 7 n' ev
      ∧ ∀ q, (n'.ingested ev).m.Held 7 q →
        (start Config.production 0 Policy.shipped []).MissedSince retried 7 q j := by
  have hmiss : retried[4]? = some (.fetchResult 1 0 [(7, .missed)]) := rfl
  have hfetch : retried[5]? = some (.fetchResult 2 0 [(7, .missed)]) := rfl
  refine (no_regrab 0 Policy.shipped [] retried 7 1).1 4 5 0 [7] ((at_iff hmiss).mpr ?_) (by decide)
    ((at_iff hfetch).mpr ?_) (by simp)
  · exact ⟨rfl, [], [], rfl, by decide +kernel⟩
  · decide +kernel

end Melissi.Node
