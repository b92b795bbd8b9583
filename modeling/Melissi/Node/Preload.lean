import Melissi.Machine.Sum
import Melissi.Node.Handle

/-!
# Local arrivals

A triple may be stored from outside while it is leased. The delivery of that lease then counts as a
second one: the tripwire latches and the floor is off by one. Everything else a local arrival meets
is harmless.
-/

namespace Melissi.Node

open Melissi.Common Melissi.Machine Melissi.Machine.PullState
open Std (ExtTreeMap ExtTreeSet)

variable {C : Type} [LinearOrder C]

/-- What may happen to a node: an event, or a local arrival. -/
inductive Input (C : Type) where
  | event (ev : Event C)
  | preload (c : C)

def input (n : Node C) : Input C → Node C × List (Effect C)
  | .event ev => n.handle ev
  | .preload c => ((n.preload c).1, [])

/-- The states and effects of a run of inputs. -/
def inputs (n : Node C) (is : List (Input C)) : Node C × List (Effect C) := feed input n is

/-- The outcome that decides the lease of `c`: a rejection of a stored triple does nothing. -/
def deciding (outcomes : List (C × Outcome)) (c : C) : Option (C × Outcome) :=
  outcomes.find? fun e => decide (e.1 = c ∧ e.2 ≠ .rejected)

/-- The input delivers a triple that is stored although it is leased to the deliverer. -/
def Doubles (n : Node C) : Input C → Prop
  | .event (.fetchResult p _ outcomes) =>
    ∃ c, n.m.Leased c p ∧ c ∈ n.m.got ∧ deciding outcomes c = some (c, .delivered)
  | _ => False

/-! ## Outcomes -/

/-- One outcome latches the tripwire if it delivers a stored lease. -/
theorem conflict_report (peer : PeerId) (m : PullState C) (e : C × Outcome) :
    (report peer m e).conflict ↔
      m.conflict ∨ e.2 = .delivered ∧ m.Leased e.1 peer ∧ e.1 ∈ m.got := by
  obtain ⟨c, o⟩ := e
  cases o with
  | delivered =>
    rw [report, and_iff_right rfl]
    exact m.conflict_act (.deliver c peer)
  | rejected => simp [report]
  | missed => simp [report]

theorem deciding_cons (e : C × Outcome) (outcomes : List (C × Outcome)) (c : C) :
    deciding (e :: outcomes) c
      = if e.1 = c ∧ e.2 ≠ .rejected then some e else deciding outcomes c := by
  rw [deciding, List.find?_cons]
  by_cases h : e.1 = c ∧ e.2 ≠ .rejected <;> simp [h, deciding]

/-- The outcomes latch the tripwire if one of them decides a stored lease by a delivery. -/
theorem conflict_reported (peer : PeerId) (outcomes : List (C × Outcome)) (m : PullState C)
    (hf : m.cfg.failover) : (outcomes.foldl (report peer) m).conflict ↔
      m.conflict ∨ ∃ c, m.Leased c peer ∧ c ∈ m.got ∧ deciding outcomes c = some (c, .delivered) := by
  induction outcomes generalizing m with
  | nil => simp [deciding]
  | cons e outcomes ih =>
    rw [List.foldl_cons, ih _ (by rw [(report_frame peer m e).1]; exact hf), conflict_report, or_assoc]
    refine or_congr_right ?_
    obtain ⟨d, o⟩ := e
    simp only [deciding_cons]
    cases o with
    | delivered =>
      simp only [report, leased_deliver, mem_got_deliver]
      constructor
      · rintro (⟨-, hl, hg⟩ | ⟨c, ⟨hne, hl⟩, hg, hc⟩)
        · exact ⟨d, hl, hg, by simp⟩
        · have hdc : d ≠ c := fun h => hne ⟨h, trivial⟩
          exact ⟨c, hl, hg.resolve_left fun h => hdc h.1, by rw [if_neg fun h => hdc h.1]; exact hc⟩
      · rintro ⟨c, hl, hg, hc⟩
        by_cases hdc : d = c
        · subst hdc
          exact .inl ⟨trivial, hl, hg⟩
        · rw [if_neg fun h => hdc h.1] at hc
          exact .inr ⟨c, ⟨fun h => hdc h.1, hl⟩, .inr hg, hc⟩
    | rejected =>
      simp only [report, leased_reject, reject_frame, ne_eq, not_true, and_false, if_false, false_or,
        reduceCtorEq, false_and]
      refine exists_congr fun c => ⟨?_, ?_⟩
      · rintro ⟨⟨-, hl⟩, hg, hc⟩
        exact ⟨hl, hg, hc⟩
      · rintro ⟨hl, hg, hc⟩
        exact ⟨⟨fun h => h.2.1 (h.1 ▸ hg), hl⟩, hg, hc⟩
    | missed =>
      simp only [report, leased_stall, stall_frame, hf, reduceCtorEq, false_and, false_or, true_and]
      refine exists_congr fun c => ?_
      by_cases hdc : d = c
      · subst hdc
        simp
      · rw [if_neg fun h => hdc h.1]
        simp [hdc]

/-- As long as the tripwire is not latched the floor stays. -/
theorem counted_reported {peer : PeerId} {outcomes : List (C × Outcome)} {m : PullState C}
    (h : Counted m) (hc : ¬ (outcomes.foldl (report peer) m).conflict) :
    Counted (outcomes.foldl (report peer) m) := by
  have hmono : ∀ (os : List (C × Outcome)) (m : PullState C), m.conflict →
      (os.foldl (report peer) m).conflict := fun os m hm =>
    foldl_invariant (I := fun m : PullState C => m.conflict) (report peer) os
      (fun m hm e _ => (conflict_report peer m e).mpr (.inl hm)) hm
  induction outcomes generalizing m with
  | nil => exact h
  | cons e outcomes ih =>
    rw [List.foldl_cons] at hc ⊢
    refine ih ?_ hc
    have hno : ¬ (report peer m e).conflict := fun hm => hc (hmono outcomes _ hm)
    rw [conflict_report, not_or] at hno
    obtain ⟨c, o⟩ := e
    cases o with
    | delivered =>
      refine h.act (a := .deliver c peer) ?_
      rintro d q ⟨⟩ hl hg
      exact hno.2 ⟨rfl, hl, hg⟩
    | rejected => exact h.act (a := .reject c) (by rintro _ _ ⟨⟩)
    | missed => exact h.act (a := .stall c peer) (by rintro _ _ ⟨⟩)

/-! ## Rounds -/

theorem conflict_loop (fuel : ℕ) (s : Sched C) : (s.loop fuel).n.m.conflict = s.n.m.conflict := by
  induction fuel generalizing s with
  | zero => rfl
  | succ fuel ih =>
    rw [Sched.loop]
    split
    · rfl
    · split
      · rfl
      · rw [ih]
        simp [Sched.commit]

/-- A round latches nothing. -/
theorem conflict_round (n : Node C) : n.round.1.m.conflict = n.m.conflict := by
  obtain ⟨done, -, h⟩ := n.settle.1.prune_eq
  have hreset : n.planned.m.conflict = n.settle.1.prune.m.conflict :=
    foldl_frame PullState.conflict _ _ (by simp) _
  have hprune : n.settle.1.prune.m.conflict = n.settle.1.m.conflict := by
    rw [h]
    exact foldl_frame PullState.conflict _ done (by simp) _
  rw [round_fst, scheduled, conflict_loop, hreset, hprune, n.settle_frame.1]

/-- What moves neither the tripwire nor a counter nor the store keeps both. -/
theorem Counted.congr {m m' : PullState C} (h : Counted m) (hc : m'.conflict = m.conflict)
    (hg : m'.got = m.got) (hd : m'.ndeliv = m.ndeliv) (hp : m'.npre = m.npre) : Counted m' :=
  ⟨hc.trans h.noConflict, by rw [hd, hp, hg, h.floor]⟩

theorem Counted.round {n : Node C} (h : Counted n.m) : Counted n.round.1.m := by
  obtain ⟨hg, -, hd, hp⟩ := n.settled_round
  exact Counted.congr h n.conflict_round hg hd hp

/-! ## Inputs -/

/-- An input keeps the tripwire and the floor unless it doubles a delivery. -/
theorem counted_input {n : Node C} (hf : n.m.cfg.failover) (h : Counted n.m) {i : Input C}
    (hi : ¬ Doubles n i) : Counted (n.input i).1.m := by
  cases i with
  | preload c => exact h.act (a := .preload c) (by rintro _ _ ⟨⟩)
  | event ev =>
    cases ev with
    | peerSeen p =>
      simp only [input, handle]
      split <;> exact h
    | peerGone p =>
      rw [input, handle_peerGone]
      refine Counted.round ?_
      obtain ⟨-, -, -, hg, -, hd, hp⟩ := losePeer_frame n.m p
      exact Counted.congr h ((foldl_frame _ _ _ (by simp) _).trans (foldl_frame _ _ _ (by simp) _))
        hg hd hp
    | cursorsResult p cursors =>
      rw [input, (n.offered_cursorsResult p cursors).m]
      exact h
    | offerResult p b start refs topmost =>
      rw [input, handle_offerResult]
      refine Counted.round ?_
      obtain ⟨-, -, hg, -, hd, hp⟩ := n.answerOffer_machine_frame ⟨p, b⟩ start refs topmost
      exact Counted.congr h (n.answerOffer_machine _ start refs topmost _ (by simp) (by simp)
        (by simp) (by simp) (by simp)) hg hd hp
    | tick =>
      rw [input, n.offered_tick.m]
      exact h
    | fetchResult p b outcomes =>
      rw [input, handle_fetchResult]
      refine Counted.round (counted_reported h ?_)
      rw [conflict_reported p outcomes n.m hf, h.noConflict]
      simpa [Doubles] using hi

/-- An input that doubles a delivery latches the tripwire. -/
theorem conflict_of_doubles {n : Node C} (hf : n.m.cfg.failover) {i : Input C} (hi : Doubles n i) :
    (n.input i).1.m.conflict := by
  cases i with
  | preload c => exact hi.elim
  | event ev =>
    cases ev with
    | fetchResult p b outcomes =>
      rw [input, handle_fetchResult, conflict_round]
      exact (conflict_reported p outcomes n.m hf).mpr (.inr hi)
    | _ => exact hi.elim

/-! ## Runs -/

/-- No input of a run doubles a delivery. -/
def Single : Node C → List (Input C) → Prop
  | _, [] => True
  | n, i :: is => ¬ Doubles n i ∧ (n.input i).1.Single is

theorem failover_input (n : Node C) (i : Input C) :
    (n.input i).1.m.cfg = n.m.cfg := by
  cases i with
  | preload c => exact (preload_frame n.m c).1
  | event ev => exact (n.calls_handle ev).cfg_eq

/-- Wherever the tripwire and the floor hold, they hold throughout a run of events and local
arrivals exactly if no fetch result of it delivers a triple that is both leased to the deliverer and
stored. -/
theorem single_iff {n : Node C} (hf : n.m.cfg.failover) (h : Counted n.m) (is : List (Input C)) :
    (∀ pre, pre <+: is → Counted (n.inputs pre).1.m) ↔ n.Single is := by
  induction is generalizing n with
  | nil => simpa [Single, inputs] using h
  | cons i is ih =>
    have hcfg := n.failover_input i
    constructor
    · intro hall
      have h₁ := hall [i] ⟨is, rfl⟩
      have hno : ¬ Doubles n i := fun hd => by
        have hc := conflict_of_doubles hf hd
        rw [show (n.input i).1.m.conflict = false from h₁.noConflict] at hc
        cases hc
      refine ⟨hno, (ih (n := (n.input i).1) (by rw [hcfg]; exact hf) h₁).mp fun pre hpre => ?_⟩
      exact hall (i :: pre) (List.prefix_cons_inj i |>.mpr hpre)
    · rintro ⟨hno, his⟩ pre hpre
      have h₁ := counted_input hf h hno
      cases pre with
      | nil => exact h
      | cons j pre =>
        obtain ⟨rfl, hrest⟩ := List.cons_prefix_cons.mp hpre
        exact (ih (by rw [hcfg]; exact hf) h₁).mpr his pre hrest

/-- Under the shipped configuration a run of events and local arrivals keeps the tripwire unlatched
and as many deliveries and preloads as stored triples exactly if no fetch result of it delivers a
triple that a local arrival has stored since it was leased. -/
theorem arrivals_counted_iff (radius : Bin) (policy : Policy) (is : List (Input C)) :
    (∀ pre, pre <+: is →
      ((withPolicy Config.production radius policy).inputs pre).1.m.conflict = false
        ∧ ((withPolicy Config.production radius policy).inputs pre).1.m.ndeliv
            + ((withPolicy Config.production radius policy).inputs pre).1.m.npre
          = ((withPolicy Config.production radius policy).inputs pre).1.m.got.size)
      ↔ (withPolicy Config.production radius policy : Node C).Single is := by
  rw [← single_iff (n := withPolicy Config.production radius policy) rfl
    (safe_new Config.production).counted is]
  exact forall₂_congr fun pre _ => ⟨fun h => ⟨h.1, h.2⟩, fun h => ⟨h.noConflict, h.floor⟩⟩

/-- A triple that lands while it is fetched is delivered a second time. -/
theorem arrival_doubled :
    let is : List (Input ℕ) := [.event (.peerSeen 1), .event (.cursorsResult 1 [(1, 5)]),
      .event (.offerResult 1 1 1 [(1, 7)] 1), .preload 7, .event (.fetchResult 1 1 [(7, .delivered)])]
    let n := ((withPolicy Config.production 0 Policy.shipped).inputs is).1
    n.m.conflict = true ∧ n.m.ndeliv + n.m.npre ≠ n.m.got.size := by
  decide +kernel

end Melissi.Node
