import Melissi.Node.Handle

/-!
# The turns of the scheduling loop

One pass of the loop is a list of picks, each what the policy picks among the wants that are enabled
by then. The list ends where nothing is enabled, and what the round fetches, leases and counts is
read off it.
-/

namespace Melissi.Node

open Melissi.Common Melissi.Machine Melissi.Machine.PullState Melissi.Settlement
open Std (ExtTreeMap ExtTreeSet)

variable {C : Type} [LinearOrder C]

namespace Sched

/-- The state after a list of picks. -/
def after (s : Sched C) (picks : List (C × PeerId)) : Sched C :=
  picks.foldl (fun s e => s.commit e.1 e.2) s

@[simp] theorem after_nil (s : Sched C) : s.after [] = s := rfl

@[simp] theorem after_cons (s : Sched C) (e : C × PeerId) (picks : List (C × PeerId)) :
    s.after (e :: picks) = (s.commit e.1 e.2).after picks := rfl

theorem after_append (s : Sched C) (picks picks' : List (C × PeerId)) :
    s.after (picks ++ picks') = (s.after picks).after picks' := List.foldl_append

/-- The policy picks `e` in `s`. -/
def Picked (s : Sched C) (e : C × PeerId) : Prop :=
  s.deepest = some e.1 ∧ s.leastLoaded e.1 = some e.2

/-- The turns of the loop from `s` on, to its end: one pick after the other, until nothing is
enabled. -/
def Turns : Sched C → List (C × PeerId) → Prop
  | s, [] => s.enabled = []
  | s, e :: picks => s.Picked e ∧ Turns (s.commit e.1 e.2) picks

theorem Picked.enabled {s : Sched C} {e : C × PeerId} (h : s.Picked e) : e ∈ s.enabled :=
  mem_enabled_of_pick h.2

/-- With the fuel there is the loop takes all of its turns. -/
theorem loop_turns (fuel : ℕ) {s : Sched C} (hfuel : s.unleased.length ≤ fuel) :
    ∃ picks, Turns s picks ∧ loop fuel s = s.after picks := by
  induction fuel generalizing s with
  | zero =>
    refine ⟨[], List.eq_nil_iff_forall_not_mem.mpr ?_, rfl⟩
    rintro ⟨c, p⟩ he
    have := unleased_commit_lt he
    omega
  | succ fuel ih =>
    rw [loop]
    split
    · next hd => exact ⟨[], deepest_eq_none.mp hd, rfl⟩
    · next c hd =>
      split
      · next hl => exact absurd hl (leastLoaded_ne_none hd)
      · next p hl =>
        have := unleased_commit_lt (mem_enabled_of_pick hl)
        obtain ⟨picks, hturns, hloop⟩ := @ih (s.commit c p) (by omega)
        exact ⟨(c, p) :: picks, ⟨⟨hd, hl⟩, hturns⟩, hloop⟩

/-- What the turns of a pass are made of: turns up to a point, and the turns from there. -/
theorem Turns.split {s : Sched C} {picks picks' : List (C × PeerId)} (h : Turns s (picks ++ picks')) :
    Turns (s.after picks) picks' := by
  induction picks generalizing s with
  | nil => exact h
  | cons e picks ih => exact ih h.2

theorem Turns.picked {s : Sched C} {pre post : List (C × PeerId)} {e : C × PeerId}
    (h : Turns s (pre ++ e :: post)) : (s.after pre).Picked e := h.split.1

theorem Turns.ended {s : Sched C} {picks : List (C × PeerId)} (h : Turns s picks) :
    (s.after picks).enabled = [] := by
  rw [← List.append_nil picks] at h
  exact h.split

theorem Inv.after {n : Node C} {s : Sched C} (hinv : Inv n s) {pre post : List (C × PeerId)}
    (h : Turns s (pre ++ post)) : Inv n (s.after pre) := by
  induction pre generalizing s with
  | nil => exact hinv
  | cons e pre ih => exact ih (hinv.commit h.1.enabled) h.2

/-! ## What the picks add up to -/

/-- A pick is a want that the machine takes. -/
theorem wantFrom_of_enabled {s : Sched C} {e : C × PeerId} (h : e ∈ s.enabled) :
    (s.n.m.wantFrom e.1 e.2).2 = true := by
  obtain ⟨hcl, -⟩ := (s.mem_enabled e.1 e.2).mp h
  simp [wantFrom, hcl]

/-- The leases after a pass are those before it and the picks. -/
theorem leased_after {s : Sched C} {picks : List (C × PeerId)} (h : Turns s picks) (c : C)
    (p : PeerId) : (s.after picks).n.m.Leased c p ↔ s.n.m.Leased c p ∨ (c, p) ∈ picks := by
  induction picks generalizing s with
  | nil => simp
  | cons e picks ih =>
    obtain ⟨hcl, -⟩ := (s.mem_enabled e.1 e.2).mp h.1.enabled
    rw [after_cons, ih h.2, Sched.commit]
    dsimp only
    rw [leased_wantFrom, List.mem_cons, Prod.ext_iff]
    simp only [hcl, true_and]
    grind

/-- No pick is made twice, and none of a pair that is leased already. -/
theorem Turns.nodup {s : Sched C} {picks : List (C × PeerId)} (h : Turns s picks) :
    picks.Nodup ∧ ∀ e ∈ picks, ¬ s.n.m.Leased e.1 e.2 := by
  induction picks generalizing s with
  | nil => simp
  | cons e picks ih =>
    obtain ⟨hcl, -⟩ := (s.mem_enabled e.1 e.2).mp h.1.enabled
    obtain ⟨hnd, hfree⟩ := ih h.2
    have hstep : ∀ c p, (s.commit e.1 e.2).n.m.Leased c p ↔ e.1 = c ∧ e.2 = p ∨ s.n.m.Leased c p := by
      intro c p
      rw [Sched.commit]
      dsimp only
      rw [leased_wantFrom, and_iff_right hcl]
    refine ⟨List.nodup_cons.mpr ⟨fun hmem => ?_, hnd⟩, fun e' he' => ?_⟩
    · exact hfree e hmem ((hstep _ _).mpr (.inl ⟨rfl, rfl⟩))
    · rcases List.mem_cons.mp he' with rfl | he'
      · exact ((s.n.m.claimable_iff _ _).mp hcl).2.2.2.1
      · exact fun hl => hfree e' he' ((hstep _ _).mpr (.inr hl))

/-- A want of `c` leaves a lease entry of `c`, and those of the others. -/
theorem mem_want_commit {s : Sched C} {e : C × PeerId} (h : e ∈ s.enabled) (d : C) :
    d ∈ (s.commit e.1 e.2).n.m.want ↔ e.1 = d ∨ d ∈ s.n.m.want := by
  obtain ⟨hcl, -⟩ := (s.mem_enabled e.1 e.2).mp h
  simp only [Sched.commit, wantFrom, hcl, setInsert]
  simp

/-- With at most one claim an id, no triple is picked twice, and none that is claimed already. -/
theorem Turns.nodup_fst {s : Sched C} {picks : List (C × PeerId)} (hd : s.n.m.cfg.dedup)
    (h : Turns s picks) : (picks.map (·.1)).Nodup ∧ ∀ e ∈ picks, e.1 ∉ s.n.m.want := by
  induction picks generalizing s with
  | nil => simp
  | cons e picks ih =>
    obtain ⟨hcl, -⟩ := (s.mem_enabled e.1 e.2).mp h.1.enabled
    obtain ⟨hnd, hfree⟩ := ih (by simpa [Sched.commit] using hd) h.2
    have hmem := mem_want_commit h.1.enabled
    refine ⟨List.nodup_cons.mpr ⟨fun hin => ?_, hnd⟩, fun e' he' => ?_⟩
    · obtain ⟨e', he', heq⟩ := List.mem_map.mp hin
      exact hfree e' he' ((hmem _).mpr (.inl heq.symm))
    · rcases List.mem_cons.mp he' with rfl | he'
      · exact ((s.n.m.claimable_iff _ _).mp hcl).2.2.2.2.2.1 hd
      · exact fun hw => hfree e' he' ((hmem _).mpr (.inr hw))

/-- How often a peer has been assigned to. -/
def assignedTo (s : Sched C) (p : PeerId) : ℕ := s.n.assigned[p]?.getD 0

theorem assignedTo_commit (s : Sched C) (c : C) (p q : PeerId) :
    (s.commit c p).assignedTo q = s.assignedTo q + if p = q then 1 else 0 := by
  simp only [assignedTo, Sched.commit, ExtTreeMap.getElem?_insert, compare_eq_iff_eq]
  split
  · next h =>
    subst h
    rfl
  · rfl

/-- A peer's counter grows by its picks. -/
theorem assignedTo_after (s : Sched C) (picks : List (C × PeerId)) (p : PeerId) :
    (s.after picks).assignedTo p = s.assignedTo p + (picks.filter fun e => e.2 = p).length := by
  induction picks generalizing s with
  | nil => rfl
  | cons e picks ih =>
    rw [after_cons, ih, assignedTo_commit, List.filter_cons]
    by_cases he : e.2 = p
    · simp only [he, if_true, decide_true, List.length_cons]
      omega
    · simp only [he, if_false, decide_false, Bool.false_eq_true, Nat.add_zero]

/-- No key is given more than the window. -/
theorem committed_after {s : Sched C} {picks : List (C × PeerId)} (h : Turns s picks)
    (hle : ∀ k : PeerBin, s.committed[k]?.getD 0 ≤ s.n.policy.window) (k : PeerBin) :
    (s.after picks).committed[k]?.getD 0 ≤ s.n.policy.window := by
  induction picks generalizing s with
  | nil => exact hle k
  | cons e picks ih =>
    obtain ⟨-, hbudget⟩ := (s.mem_enabled e.1 e.2).mp h.1.enabled
    refine @ih (s.commit e.1 e.2) h.2 fun k' => ?_
    simp only [Sched.commit, ExtTreeMap.getElem?_insert, compare_eq_iff_eq]
    split
    · next hk =>
      subst hk
      exact hbudget
    · exact hle k'

end Sched

/-! ## What a round fetches -/

/-- The fetches among the effects, as pairs of a peer and a triple. -/
def fetchPairs (fx : List (Effect C)) : List (PeerId × C) :=
  fx.flatMap fun
    | .fetch p _ want => want.map (p, ·)
    | _ => []

/-- The peer and bin of each fetch among the effects. -/
def fetchKeys (fx : List (Effect C)) : List PeerBin :=
  fx.filterMap fun
    | .fetch p b _ => some ⟨p, b⟩
    | _ => none

omit [LinearOrder C] in
theorem fetches_append (fx fx' : List (Effect C)) :
    fetchPairs (fx ++ fx') = fetchPairs fx ++ fetchPairs fx'
      ∧ fetchKeys (fx ++ fx') = fetchKeys fx ++ fetchKeys fx' :=
  ⟨List.flatMap_append, List.filterMap_append⟩

omit [LinearOrder C] in
theorem mem_fetchPairs {fx : List (Effect C)} {p : PeerId} {c : C} :
    (p, c) ∈ fetchPairs fx ↔ ∃ b want, .fetch p b want ∈ fx ∧ c ∈ want := by
  rw [fetchPairs, List.mem_flatMap]
  constructor
  · rintro ⟨f, hf, hc⟩
    cases f with
    | fetch q b want =>
      obtain ⟨d, hd, heq⟩ := List.mem_map.mp hc
      obtain ⟨rfl, rfl⟩ := Prod.mk.inj heq
      exact ⟨b, want, hf, hd⟩
    | _ => cases hc
  · rintro ⟨b, want, hf, hc⟩
    exact ⟨_, hf, List.mem_map.mpr ⟨c, hc, rfl⟩⟩

/-- Settling fetches nothing, so a round fetches what its scheduling pass does. -/
theorem fetches_round (n : Node C) : fetchPairs n.round.2 = fetchPairs n.planned.schedule.2
    ∧ fetchKeys n.round.2 = fetchKeys n.planned.schedule.2 := by
  have hno : ∀ f ∈ n.settle.2, ∀ p b want, f ≠ .fetch p b want := by
    rintro f hf p b want rfl
    rw [effects_settle, List.mem_flatMap] at hf
    obtain ⟨k, -, hk⟩ := hf
    simp [settleEffects] at hk
  have hpairs : fetchPairs n.settle.2 = [] := by
    rw [fetchPairs, List.flatMap_eq_nil_iff]
    intro f hf
    cases f with
    | fetch p b want => exact absurd rfl (hno _ hf p b want)
    | _ => rfl
  have hkeys : fetchKeys n.settle.2 = [] := by
    rw [fetchKeys, List.filterMap_eq_nil_iff]
    intro f hf
    cases f with
    | fetch p b want => exact absurd rfl (hno _ hf p b want)
    | _ => rfl
  obtain ⟨happ, happ'⟩ := fetches_append n.settle.2 n.planned.schedule.2
  rw [round_snd, happ, happ', hpairs, hkeys, List.nil_append, List.nil_append]
  exact ⟨rfl, rfl⟩

/-- The batches are one fetch a key. -/
theorem nodup_fetchKeys (n : Node C) : (fetchKeys n.round.2).Nodup := by
  have hkeys : fetchKeys n.planned.schedule.2
      = n.planned.scheduled.batches.toList.map (·.1) := by
    rw [schedule_snd, fetchKeys, List.filterMap_map]
    exact List.filterMap_eq_map.symm ▸ rfl
  rw [n.fetches_round.2, hkeys, List.nodup_iff_pairwise_ne, List.pairwise_map]
  exact (sorted_entries n.planned.scheduled.batches).imp fun hlt heq => absurd heq hlt.ne

/-- No pair is fetched twice. -/
theorem nodup_fetchPairs (n : Node C) : (fetchPairs n.round.2).Nodup := by
  rw [n.fetches_round.1, fetchPairs, List.nodup_flatMap]
  constructor
  · intro f hf
    obtain ⟨p, b, want, rfl⟩ := mem_schedule hf
    obtain ⟨-, rfl⟩ := (n.planned.fetch_mem_schedule p b want).mp hf
    exact (n.planned.scheduled_spec.1.nodup _).map fun _ _ h => (Prod.mk.inj h).2
  · refine (apart_schedule n.planned).imp_of_mem fun {f g} hf hg hapart => ?_
    obtain ⟨p, b, want, rfl⟩ := mem_schedule hf
    obtain ⟨p', b', want', rfl⟩ := mem_schedule hg
    rintro ⟨q, c⟩ hc hc'
    simp only [List.mem_map, Prod.mk.injEq] at hc hc'
    obtain ⟨d, hd, rfl, rfl⟩ := hc
    obtain ⟨d', hd', rfl, rfl⟩ := hc'
    exact hapart _ _ _ _ _ rfl rfl _ hd hd'

/-- What a round fetches is what it newly leases. -/
theorem mem_fetchPairs_round (n : Node C) (p : PeerId) (c : C) :
    (p, c) ∈ fetchPairs n.round.2 ↔ n.round.1.m.Leased c p ∧ ¬ n.m.Leased c p := by
  have hfetch : (p, c) ∈ fetchPairs n.round.2 ↔ c ∈ n.planned.fetched ⟨p, n.planned.bin c⟩ := by
    rw [mem_fetchPairs]
    constructor
    · rintro ⟨b, want, hf, hc⟩
      obtain ⟨-, rfl⟩ := (n.fetch_mem_round p b want).mp hf
      rwa [(mem_fetched hc).1]
    · intro hc
      exact ⟨_, _, (n.fetch_mem_round p _ _).mpr ⟨List.ne_nil_of_mem hc, rfl⟩, hc⟩
  rw [hfetch, leased_round]
  constructor
  · exact fun hc => ⟨.inr hc, (mem_fetched hc).2.1⟩
  · exact fun h => h.1.resolve_left h.2

/-! ## The pass and its effects -/

/-- What the turns of the scheduling pass of the round of `n` have to do with its effects. -/
structure Matched (n : Node C) (picks : List (C × PeerId)) : Prop where
  /-- The loop takes these turns and ends, and the round ends in the state after them. -/
  turns : Sched.Turns ⟨n.planned, ∅, ∅⟩ picks
  ends : n.round.1 = ((⟨n.planned, ∅, ∅⟩ : Sched C).after picks).n
  /-- Each want is enabled when it is chosen, and the machine takes it. -/
  taken : ∀ pre e post, picks = pre ++ e :: post →
    e ∈ ((⟨n.planned, ∅, ∅⟩ : Sched C).after pre).enabled
      ∧ (((⟨n.planned, ∅, ∅⟩ : Sched C).after pre).n.m.wantFrom e.1 e.2).2 = true
  /-- The fetched pairs are the new leases, none of them twice. -/
  leases : ∀ p c, (p, c) ∈ fetchPairs n.round.2 ↔ n.round.1.m.Leased c p ∧ ¬ n.m.Leased c p
  once : (fetchPairs n.round.2).Nodup
  /-- There is at most one fetch a key, of at most as many triples as the window has, all of that
  bin. -/
  grouped : (fetchKeys n.round.2).Nodup
  bounded : ∀ p b want, .fetch p b want ∈ n.round.2 →
    want.length ≤ n.policy.window ∧ ∀ c ∈ want, n.round.1.bin c = b
  /-- With at most one claim an id, no triple is in two fetches. -/
  exclusive : n.m.cfg.dedup → ((fetchPairs n.round.2).map (·.2)).Nodup
  /-- A peer's counter grows by its new leases. -/
  counted : ∀ p : PeerId, n.round.1.assigned[p]?.getD 0
    = n.assigned[p]?.getD 0 + ((fetchPairs n.round.2).filter fun e => e.1 = p).length
  /-- A want that is still enabled has used up the window of its key. -/
  exhausted : ∀ c p, n.round.1.m.claimable c p →
    ∃ want, .fetch p (n.round.1.bin c) want ∈ n.round.2 ∧ want.length = n.policy.window

theorem assigned_planned (n : Node C) : n.planned.assigned = n.assigned := by
  rw [planned, (reset_frame _).2.2.2.2.2.2.1, (prune_frame _).2.2.2.2.2.1, n.settle_frame.2.2.2.2.2.2]

/-- From every node state the scheduling loop of a round ends, and what the round fetches matches
what it leases and counts. -/
theorem round_matched (n : Node C) (hw : 1 ≤ n.policy.window) : ∃ picks, Matched n picks := by
  obtain ⟨picks, hturns, hloop⟩ := Sched.loop_turns (s := ⟨n.planned, ∅, ∅⟩)
    (holderPairs n.planned.m).length (List.length_filter_le _ _)
  have hends : n.round.1 = ((⟨n.planned, ∅, ∅⟩ : Sched C).after picks).n := by
    rw [round_fst, scheduled, hloop]
  have hinv := n.planned.scheduled_spec.1
  have hafter : n.planned.scheduled = (⟨n.planned, ∅, ∅⟩ : Sched C).after picks := hloop
  have hbins : ∀ c, n.round.1.bin c = n.planned.bin c := by
    intro c
    rw [bin, bin, round_fst, hinv.binOf]
  have hlen : ∀ k, (n.planned.fetched k).length ≤ n.policy.window := by
    intro k
    have hle := Sched.committed_after hturns (by simp) k
    rw [← hafter, hinv.committed] at hle
    rwa [n.planned_frame.1] at hle
  -- the picks and the fetched pairs are the same, up to their order
  have hperm : (fetchPairs n.round.2).Perm (picks.map Prod.swap) := by
    rw [List.perm_ext_iff_of_nodup n.nodup_fetchPairs
      (hturns.nodup.1.map Prod.swap_injective)]
    rintro ⟨p, c⟩
    rw [mem_fetchPairs_round, hends, Sched.leased_after hturns]
    have hbefore : n.planned.m.Leased c p ↔ n.m.Leased c p := by
      rw [n.planned_machine_frame.2.2.1]
    have hnew : (c, p) ∈ picks → ¬ n.planned.m.Leased c p := hturns.nodup.2 (c, p)
    simp only [hbefore] at hnew ⊢
    rw [List.mem_map]
    constructor
    · rintro ⟨hl | hin, hno⟩
      · exact absurd hl hno
      · exact ⟨(c, p), hin, rfl⟩
    · rintro ⟨⟨c', p'⟩, hin, heq⟩
      obtain ⟨rfl, rfl⟩ := Prod.mk.inj heq
      exact ⟨.inr hin, hnew hin⟩
  refine ⟨picks, hturns, hends, ?_, n.mem_fetchPairs_round, n.nodup_fetchPairs, n.nodup_fetchKeys,
    ?_, ?_, ?_, ?_⟩
  · rintro pre e post rfl
    have he := hturns.picked.enabled
    exact ⟨he, Sched.wantFrom_of_enabled he⟩
  · intro p b want hf
    obtain ⟨-, rfl⟩ := (n.fetch_mem_round p b want).mp hf
    exact ⟨hlen _, fun c hc => (hbins c).trans (mem_fetched hc).1⟩
  · intro hd
    have hnd := (hturns.nodup_fst (by rw [n.planned_machine_frame.1]; exact hd)).1
    have hmap := hperm.map Prod.snd
    rw [List.map_map] at hmap
    exact hmap.nodup_iff.mpr hnd
  · intro p
    have hcount := Sched.assignedTo_after (⟨n.planned, ∅, ∅⟩ : Sched C) picks p
    rw [Sched.assignedTo, Sched.assignedTo, ← hends, n.assigned_planned] at hcount
    rw [hcount, (hperm.filter _).length_eq, List.filter_map, List.length_map]
    rfl
  · intro c p hcl
    have hno : (c, p) ∉ n.planned.scheduled.enabled := by
      rw [n.planned.scheduled_spec.2]
      exact List.not_mem_nil
    have hkey : n.planned.scheduled.n.bin c = n.planned.bin c := by
      rw [← round_fst, hbins c]
    rw [round_fst] at hcl
    rw [Sched.mem_enabled, and_iff_right hcl, hinv.committed, not_lt, hinv.policy,
      n.planned_frame.1, hkey] at hno
    have hfull := le_antisymm (hlen ⟨p, n.planned.bin c⟩) hno
    refine ⟨_, (n.fetch_mem_round p _ _).mpr ⟨?_, rfl⟩, ?_⟩
    · rw [hbins c]
      exact List.ne_nil_of_length_pos (by omega)
    · rw [hbins c]
      exact hfull

theorem round_matched_offered : ∃ picks, Matched
    (((start Config.production 0 Policy.shipped ([] : List ℕ)).run [.peerSeen 1]).1.answerOffer
      ⟨1, 0⟩ 1 [(1, 7), (2, 8)] 2) picks :=
  round_matched _ (by decide +kernel)

end Melissi.Node
