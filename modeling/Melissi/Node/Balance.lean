import Melissi.Common.Spread
import Melissi.Node.Schedule

/-!
# The balance of a scheduling pass

Where every waiting chunk has the same holders and no window fills up, each pick finds all of them
enabled and takes the one that has been assigned to least. So a pass leases every waiting chunk, and
the counters of the holders stay as close together as they were, or within one of each other.
-/

namespace Melissi.Node

open Melissi.Common Melissi.Machine Melissi.Machine.PullState Melissi.Settlement
open Std (ExtTreeMap ExtTreeSet)

variable {C : Type} [LinearOrder C]

/-- The chunks that wait for a lease: arrived, neither stored nor leased. A rejected one is not
arrived any more. -/
def waiting (n : Node C) : List C :=
  n.m.arrived.toList.filter fun c => !n.m.got.contains c && !n.m.want.contains c

theorem mem_waiting (n : Node C) (c : C) :
    c ∈ n.waiting ↔ c ∈ n.m.arrived ∧ c ∉ n.m.got ∧ c ∉ n.m.want := by
  simp [waiting]

/-- How often the peers have been assigned to. -/
def assignedTo (n : Node C) (p : PeerId) : ℕ := n.assigned[p]?.getD 0

/-- The state of a scheduling pass in production with cumulative routing: all waiting chunks have
the same holders, none is barred, and the window holds them all. -/
structure SharedHolders (n : Node C) (H : Finset PeerId) : Prop where
  cfg : n.m.cfg = Config.production
  routing : n.policy.cumulativeRouting
  nonempty : H.Nonempty
  held : ∀ c ∈ n.waiting, ∀ p, n.m.Held c p ↔ p ∈ H
  unbarred : ∀ c ∈ n.waiting, ∀ p, ¬ n.m.Barred c p
  window : n.waiting.length ≤ n.policy.window

namespace Sched

/-! ## What the picks keep -/

theorem cfg_after (s : Sched C) (picks : List (C × PeerId)) : (s.after picks).n.m.cfg = s.n.m.cfg :=
  foldl_frame (fun s : Sched C => s.n.m.cfg) _ picks (fun s e _ => by simp [Sched.commit]) s

theorem mem_want_after {s : Sched C} {pre post : List (C × PeerId)} (h : Turns s (pre ++ post))
    (d : C) : d ∈ (s.after pre).n.m.want ↔ d ∈ pre.map (·.1) ∨ d ∈ s.n.m.want := by
  induction pre generalizing s with
  | nil => simp
  | cons e pre ih =>
    rw [after_cons, ih h.2, mem_want_commit h.1.enabled, List.map_cons, List.mem_cons]
    grind

/-- A key is given no more than there are picks. -/
theorem length_batch_after (s : Sched C) (picks : List (C × PeerId)) (k : PeerBin) :
    ((s.after picks).batch k).length ≤ (s.batch k).length + picks.length := by
  induction picks generalizing s with
  | nil => exact le_rfl
  | cons e picks ih =>
    have hstep : ((s.commit e.1 e.2).batch k).length ≤ (s.batch k).length + 1 := by
      simp only [batch, Sched.commit, ExtTreeMap.getElem?_insert, compare_eq_iff_eq]
      split
      · next hk => simp [hk]
      · omega
    have hrest := ih (s.commit e.1 e.2)
    rw [after_cons, List.length_cons]
    omega

/-- The policy takes a holder that has been assigned to least. -/
theorem Picked.least {s : Sched C} {e : C × PeerId} (h : s.Picked e)
    (hr : s.n.policy.cumulativeRouting) {q : PeerId} (hq : (e.1, q) ∈ s.enabled) :
    s.assignedTo e.2 ≤ s.assignedTo q := by
  have hmem : q ∈ (s.enabled.filter fun e' => e'.1 == e.1).map (·.2) :=
    List.mem_map.mpr ⟨(e.1, q), List.mem_filter.mpr ⟨hq, by simp⟩, rfl⟩
  have hle := List.le_of_mem_argmin hmem h.2
  simp only [hr, if_true] at hle
  exact Prod.Lex.monotone_fst _ _ hle

end Sched

section Pass

variable {n : Node C} {H : Finset PeerId} {pre post : List (C × PeerId)}

/-- The state of the pass from `n` after some picks. -/
def passed (n : Node C) (picks : List (C × PeerId)) : Sched C := (⟨n, ∅, ∅⟩ : Sched C).after picks

/-- The chunks picked are different waiting ones. -/
theorem SharedHolders.picked_waiting (h : SharedHolders n H) {picks : List (C × PeerId)}
    (ht : Sched.Turns ⟨n, ∅, ∅⟩ picks) :
    (picks.map (·.1)).Nodup ∧ ∀ e ∈ picks, e.1 ∈ n.waiting := by
  have hd : n.m.cfg.dedup := by rw [h.cfg]; rfl
  obtain ⟨hnd, hfree⟩ := ht.nodup_fst hd
  refine ⟨hnd, fun e he => ?_⟩
  obtain ⟨pre', post', rfl⟩ := List.append_of_mem he
  have hinv := (Sched.inv_start n).after ht
  obtain ⟨hcl, -⟩ := (Sched.mem_enabled _ _ _).mp ht.picked.enabled
  obtain ⟨harr, -, hgot, -⟩ := (claimable_iff _ _ _).mp hcl
  rw [hinv.arrived] at harr
  rw [hinv.got] at hgot
  exact (n.mem_waiting e.1).mpr ⟨harr, hgot, hfree e he⟩

/-- While a chunk waits that no deeper one gates, each of its holders is enabled. -/
theorem SharedHolders.enabled (h : SharedHolders n H)
    (ht : Sched.Turns ⟨n, ∅, ∅⟩ (pre ++ post)) {c : C} (hc : c ∈ n.waiting)
    (hnew : c ∉ pre.map (·.1)) (hprio : (n.passed pre).n.m.prioOk c) {q : PeerId} (hq : q ∈ H) :
    (c, q) ∈ (n.passed pre).enabled := by
  have hinv : Sched.Inv n (n.passed pre) := (Sched.inv_start n).after ht
  obtain ⟨harr, hgot, hwant⟩ := (n.mem_waiting c).mp hc
  have hfree : c ∉ (n.passed pre).n.m.want := by
    rw [passed, Sched.mem_want_after ht]
    exact not_or.mpr ⟨hnew, hwant⟩
  have hcfg : (n.passed pre).n.m.cfg = Config.production := (Sched.cfg_after _ pre).trans h.cfg
  -- the picks so far and `c` are different waiting chunks, so no window is full
  have hroom : pre.length + 1 ≤ n.waiting.length := by
    obtain ⟨hnd, hmem⟩ := h.picked_waiting ht
    rw [List.map_append] at hnd
    have hsub : ∀ d ∈ c :: pre.map (·.1), d ∈ n.waiting := by
      intro d hd
      rcases List.mem_cons.mp hd with rfl | hd
      · exact hc
      · obtain ⟨e, he, rfl⟩ := List.mem_map.mp hd
        exact hmem e (List.mem_append_left _ he)
    have hle := ((List.nodup_cons.mpr ⟨hnew, hnd.of_append_left⟩).subperm hsub).length_le
    rwa [List.length_cons, List.length_map] at hle
  rw [Sched.mem_enabled]
  constructor
  · refine (claimable_iff _ c q).mpr ⟨?_, ?_, ?_, fun hl => ?_, ?_, fun _ => hfree, fun hs => ?_,
      fun _ => by rw [hcfg]; rfl, hprio⟩
    · rwa [hinv.arrived]
    · rw [hinv.held_eq]
      exact (h.held c hc q).mpr hq
    · rwa [hinv.got]
    · obtain ⟨ps, hps, -⟩ := (setContains_iff _ c q).mp hl
      exact hfree (ExtTreeMap.isSome_getElem?_iff_mem.mp (by simp [hps]))
    · rw [hinv.barred_eq]
      exact h.unbarred c hc q
    · rw [hcfg] at hs
      cases hs
  · have hlen := Sched.length_batch_after (⟨n, ∅, ∅⟩ : Sched C) pre ⟨q, (n.passed pre).n.bin c⟩
    rw [hinv.committed, hinv.policy]
    have hwin := h.window
    have hnil : ((⟨n, ∅, ∅⟩ : Sched C).batch ⟨q, (n.passed pre).n.bin c⟩).length = 0 := by
      simp [Sched.batch]
    rw [hnil] at hlen
    exact lt_of_le_of_lt hlen (by omega)

/-- Each pick goes to a holder that has been assigned to least. -/
theorem SharedHolders.least (h : SharedHolders n H) {e : C × PeerId}
    (ht : Sched.Turns ⟨n, ∅, ∅⟩ (pre ++ e :: post)) :
    ∀ q ∈ H, (n.passed pre).assignedTo e.2 ≤ (n.passed pre).assignedTo q := by
  intro q hq
  have hpick : (n.passed pre).Picked e := ht.picked
  have hinv : Sched.Inv n (n.passed pre) := (Sched.inv_start n).after ht
  obtain ⟨hnd, hmem⟩ := h.picked_waiting ht
  obtain ⟨hcl, -⟩ := (Sched.mem_enabled _ _ _).mp hpick.enabled
  have hprio := ((claimable_iff _ _ _).mp hcl).2.2.2.2.2.2.2.2
  have hnew : e.1 ∉ pre.map (·.1) := by
    intro hin
    rw [List.map_append, List.map_cons] at hnd
    exact (List.nodup_append.mp hnd).2.2 _ hin _ List.mem_cons_self rfl
  refine hpick.least ?_ (h.enabled ht (hmem e (by simp)) hnew hprio hq)
  rw [hinv.policy]
  exact h.routing

/-- At every point of the pass the counters are as close together as at its start, or within one. -/
theorem SharedHolders.spread_le (h : SharedHolders n H) (ht : Sched.Turns ⟨n, ∅, ∅⟩ (pre ++ post)) :
    spread (n.passed pre).assignedTo H ≤ max (spread n.assignedTo H) 1 := by
  induction pre using List.reverseRecOn generalizing post with
  | nil => exact le_max_left _ _
  | append_singleton pre e ih =>
    rw [List.append_assoc, List.singleton_append] at ht
    have hstep : (n.passed (pre ++ [e])).assignedTo = bump (n.passed pre).assignedTo e.2 := by
      funext q
      rw [passed, Sched.after_append]
      exact Sched.assignedTo_commit _ e.1 e.2 q
    calc spread (n.passed (pre ++ [e])).assignedTo H
        = spread (bump (n.passed pre).assignedTo e.2) H := by rw [hstep]
      _ ≤ max (spread (n.passed pre).assignedTo H) 1 := spread_bump_le (h.least ht)
      _ ≤ max (spread n.assignedTo H) 1 := max_le (ih ht) (le_max_right _ _)

/-- Where the pass ends every waiting chunk has been picked. -/
theorem SharedHolders.all_picked (h : SharedHolders n H) {picks : List (C × PeerId)}
    (ht : Sched.Turns ⟨n, ∅, ∅⟩ picks) : ∀ c ∈ n.waiting, c ∈ picks.map (·.1) := by
  by_contra hno
  push Not at hno
  obtain ⟨c₀, hc₀, hnew₀⟩ := hno
  rw [← List.append_nil picks] at ht
  have hinv : Sched.Inv n (n.passed picks) := (Sched.inv_start n).after ht
  -- the deepest of the chunks that were left out is gated by nothing
  obtain ⟨c, hc, hmax⟩ := Finset.exists_max_image
    (n.waiting.toFinset.filter fun d => d ∉ picks.map (·.1)) (n.passed picks).n.m.prioOf
    ⟨c₀, by simpa using ⟨hc₀, by simpa using hnew₀⟩⟩
  simp only [Finset.mem_filter, List.mem_toFinset] at hc hmax
  have hprio : (n.passed picks).n.m.prioOk c := by
    refine (prioOk_iff _ c).mpr fun _ d hd => ?_
    by_cases haddr : (n.passed picks).n.m.addressed d
    · exact .inr (.inr haddr)
    · left
      have hleft : d ∉ (n.passed picks).n.m.got ∧ d ∉ (n.passed picks).n.m.want := by
        simpa [addressed] using haddr
      rw [passed, Sched.mem_want_after ht, not_or, ← passed, hinv.got] at hleft
      rw [hinv.arrived] at hd
      exact hmax d ⟨(n.mem_waiting d).mpr ⟨hd, hleft.1, hleft.2.2⟩, hleft.2.1⟩
  obtain ⟨q, hq⟩ := h.nonempty
  have he := h.enabled ht hc.1 hc.2 hprio hq
  rw [List.append_nil] at ht
  have hend : (n.passed picks).enabled = [] := ht.ended
  rw [hend] at he
  cases he

end Pass

/-- A scheduling pass over chunks that all have the same holders leases every one of them, and at no
point of it are the holders' counters further apart than at its start, or than one. -/
theorem schedule_balanced (n : Node C) (H : Finset PeerId) (h : SharedHolders n H) :
    (∀ c ∈ n.waiting, ∃ p ∈ H, n.schedule.1.m.Leased c p)
      ∧ (spread n.assignedTo H ≤ 1 → spread n.schedule.1.assignedTo H ≤ 1)
      ∧ spread n.schedule.1.assignedTo H ≤ max (spread n.assignedTo H) 1
      ∧ ∀ pre post, Sched.Turns ⟨n, ∅, ∅⟩ (pre ++ post) →
        spread (n.passed pre).n.assignedTo H ≤ max (spread n.assignedTo H) 1 := by
  obtain ⟨picks, ht, hloop⟩ := Sched.loop_turns (s := ⟨n, ∅, ∅⟩)
    (holderPairs n.m).length (List.length_filter_le _ _)
  have hend : n.schedule.1 = (n.passed picks).n := congrArg Sched.n hloop
  have hspread : spread n.schedule.1.assignedTo H ≤ max (spread n.assignedTo H) 1 := by
    rw [hend]
    exact h.spread_le (by rw [List.append_nil]; exact ht : Sched.Turns ⟨n, ∅, ∅⟩ (picks ++ []))
  refine ⟨fun c hc => ?_, fun hle => ?_, hspread, fun pre post ht' => h.spread_le ht'⟩
  · obtain ⟨e, he, rfl⟩ := List.mem_map.mp (h.all_picked ht c hc)
    refine ⟨e.2, ?_, ?_⟩
    · obtain ⟨pre, post, rfl⟩ := List.append_of_mem he
      have hinv := (Sched.inv_start n).after ht
      obtain ⟨hcl, -⟩ := (Sched.mem_enabled _ _ _).mp ht.picked.enabled
      obtain ⟨-, hheld, -⟩ := (claimable_iff _ _ _).mp hcl
      rw [hinv.held_eq] at hheld
      exact (h.held e.1 hc e.2).mp hheld
    · rw [hend, passed, Sched.leased_after ht]
      exact .inr he
  · rwa [max_eq_right hle] at hspread

/-- A third peer has leased two chunks in each of two bins, the first two offer them as well, and then
the third departs. -/
def crowded : Node ℕ :=
  let n := ((start Config.production 0 Policy.shipped []).run ([3, 1, 2].flatMap fun p =>
    [.peerSeen p, .offerResult p 0 1 [(1, 7), (2, 8)] 2, .offerResult p 1 1 [(1, 9), (2, 10)] 2])).1
  (n.ingested (.peerGone 3)).planned

theorem sharedHolders_crowded : SharedHolders crowded {1, 2} := by
  have hlist : ∀ c ∈ crowded.waiting, crowded.m.holders[c]?.map (·.toList) = some [1, 2] := by
    decide +kernel
  have hbar : crowded.m.excluded = ∅ := by decide +kernel
  refine ⟨by decide +kernel, by decide +kernel, by simp, ?_, ?_, by decide +kernel⟩
  · intro c hc p
    obtain ⟨ps, hps, hmem⟩ := Option.map_eq_some_iff.mp (hlist c hc)
    rw [Held, setContains_iff, hps]
    simp only [Option.some.injEq, exists_eq_left', ← ExtTreeSet.mem_toList, hmem]
    simp
  · intro c _ p hp
    rw [Barred, hbar] at hp
    simp [setContains] at hp

theorem schedule_balanced_crowded :
    crowded.waiting = [7, 8, 9, 10]
      ∧ (∀ c ∈ crowded.waiting, ∃ p ∈ ({1, 2} : Finset PeerId), crowded.schedule.1.m.Leased c p)
      ∧ (spread crowded.assignedTo {1, 2} ≤ 1 → spread crowded.schedule.1.assignedTo {1, 2} ≤ 1)
      ∧ spread crowded.schedule.1.assignedTo {1, 2} ≤ max (spread crowded.assignedTo {1, 2}) 1
      ∧ ∀ pre post, Sched.Turns ⟨crowded, ∅, ∅⟩ (pre ++ post) →
        spread (crowded.passed pre).n.assignedTo {1, 2} ≤ max (spread crowded.assignedTo {1, 2}) 1 :=
  ⟨by decide +kernel, schedule_balanced crowded {1, 2} sharedHolders_crowded⟩

end Melissi.Node
