import Melissi.Machine.Safety
import Melissi.Node.State

/-!
# What one pass does

The four parts of a round, each described once. Settling moves every interval as far as it goes and
reopens the tails; pruning forgets what is settled and windowless; resetting clears exhausted bars;
scheduling leases within the window cap until nothing is enabled, and its fetches are exactly the
new leases.
-/

namespace Melissi.Node

open Melissi.Common Melissi.Machine Melissi.Machine.PullState Melissi.Settlement
open Std (ExtTreeMap ExtTreeSet)

variable {C : Type} [LinearOrder C]

theorem settledIn_iff (m : PullState C) (c : C) :
    settledIn m c ↔ c ∈ m.got ∨ c ∈ m.rejected := by
  simp [settledIn, PullState.has, isRejected]

/-! ## Settle -/

/-- The log of `k` after settling. -/
def settledLog (n : Node C) (k : PeerBin) : PeerBinLog C :=
  ((n.log k).advance (settledIn n.m)).1

/-- Settling reopens the tail of `k`. -/
def tailOffered (n : Node C) (k : PeerBin) : Prop :=
  (n.settledLog k).interval = (n.settledLog k).topmost ∧ k.peer ∈ n.peers
    ∧ k ∉ n.disc.offerOpen

instance decidableTailOffered (n : Node C) (k : PeerBin) : Decidable (n.tailOffered k) :=
  inferInstanceAs (Decidable (_ ∧ _ ∧ _))

/-- The effects of settling `k`. -/
def settleEffects (n : Node C) (k : PeerBin) : List (Effect C) :=
  (((n.log k).advance (settledIn n.m)).2.map fun upto => .settled k.peer k.bin upto).toList
    ++ if n.tailOffered k then [.offer k.peer k.bin (n.settledLog k).next] else []

theorem settleLog_eq (n : Node C) (k : PeerBin) :
    n.settleLog k =
      ({ n with
          logs := n.logs.insert k (n.settledLog k)
          disc := if n.tailOffered k then ⟨n.disc.offerOpen.insert k⟩ else n.disc },
        n.settleEffects k) := by
  have hnext : (n.settledLog k).next > (n.settledLog k).topmost ↔
      (n.settledLog k).interval = (n.settledLog k).topmost := by
    have := (n.settledLog k).interval_le
    rw [PeerBinLog.next]
    omega
  by_cases htail : (n.settledLog k).interval = (n.settledLog k).topmost ∧ k.peer ∈ n.peers
  · -- the tail is uncovered: an offer is opened unless one is open
    have hguard : ((n.settledLog k).next > (n.settledLog k).topmost && n.peers.contains k.peer)
        = true := by
      simp [hnext, htail]
    by_cases hopen : k ∈ n.disc.offerOpen
    · have hno : ¬ n.tailOffered k := fun h => h.2.2 hopen
      have hins : n.disc.offerOpen.insert k = n.disc.offerOpen :=
        ExtTreeSet.ext_mem fun k' => by grind
      simp only [settleLog, settleEffects, if_neg hno]
      rw [settledLog] at hguard
      rw [if_pos hguard]
      simp [openOffer, Discovery.tryOpen, hopen, hins, settledLog]
    · have hyes : n.tailOffered k := ⟨htail.1, htail.2, hopen⟩
      simp only [settleLog, settleEffects, if_pos hyes]
      rw [settledLog] at hguard
      rw [if_pos hguard]
      simp [openOffer, Discovery.tryOpen, hopen, settledLog]
  · have hguard : ¬ ((n.settledLog k).next > (n.settledLog k).topmost && n.peers.contains k.peer)
        = true := by
      simpa [hnext] using htail
    have hno : ¬ n.tailOffered k := fun h => htail ⟨h.1, h.2.1⟩
    simp only [settleLog, settleEffects, if_neg hno]
    rw [settledLog] at hguard
    rw [if_neg hguard]
    simp [settledLog]

@[simp] theorem settleLog_frame (n : Node C) (k : PeerBin) :
    (n.settleLog k).1.m = n.m ∧ (n.settleLog k).1.policy = n.policy
      ∧ (n.settleLog k).1.radius = n.radius ∧ (n.settleLog k).1.peers = n.peers
      ∧ (n.settleLog k).1.cursors = n.cursors ∧ (n.settleLog k).1.binOf = n.binOf
      ∧ (n.settleLog k).1.assigned = n.assigned := by
  rw [settleLog_eq]
  and_intros <;> rfl

/-- Settling a list of logs settles each as it stood. -/
theorem feed_settleLog (ks : List PeerBin) (hks : ks.Nodup) (n : Node C) :
    (∀ k, (feed settleLog n ks).1.logs[k]? = if k ∈ ks then some (n.settledLog k) else n.logs[k]?)
      ∧ (∀ k, k ∈ (feed settleLog n ks).1.disc.offerOpen ↔
          k ∈ n.disc.offerOpen ∨ k ∈ ks ∧ n.tailOffered k)
      ∧ (feed settleLog n ks).2 = ks.flatMap n.settleEffects := by
  induction ks generalizing n with
  | nil => simp
  | cons k ks ih =>
    obtain ⟨hk, hks⟩ := List.nodup_cons.mp hks
    obtain ⟨ih₁, ih₂, ih₃⟩ := ih hks (n.settleLog k).1
    -- settling `k` leaves every other log as it was
    have hlogs : ∀ k', (n.settleLog k).1.logs[k']? =
        if k' = k then some (n.settledLog k) else n.logs[k']? := by
      intro k'
      simp only [settleLog_eq, ExtTreeMap.getElem?_insert, compare_eq_iff_eq, @eq_comm _ k']
    have hdisc : ∀ k', k' ∈ (n.settleLog k).1.disc.offerOpen ↔
        k' ∈ n.disc.offerOpen ∨ k' = k ∧ n.tailOffered k := by
      intro k'
      simp only [settleLog_eq]
      split <;> grind
    have hlog : ∀ k' ∈ ks, (n.settleLog k).1.settledLog k' = n.settledLog k' := by
      intro k' hk'
      have hne : k' ≠ k := fun h => hk (h ▸ hk')
      simp [settledLog, log, hlogs, hne]
    have htail : ∀ k' ∈ ks, ((n.settleLog k).1.tailOffered k' ↔ n.tailOffered k') := by
      intro k' hk'
      have hne : k' ≠ k := fun h => hk (h ▸ hk')
      simp [tailOffered, hlog k' hk', hdisc, hne]
    have hfx : ∀ k' ∈ ks, (n.settleLog k).1.settleEffects k' = n.settleEffects k' := by
      intro k' hk'
      have hne : k' ≠ k := fun h => hk (h ▸ hk')
      simp only [settleEffects, htail k' hk', hlog k' hk']
      simp [log, hlogs, hne]
    refine ⟨fun k' => ?_, fun k' => ?_, ?_⟩
    · rw [feed_cons]
      simp only [ih₁, hlogs, List.mem_cons]
      by_cases hk' : k' ∈ ks
      · simp [hk', hlog k' hk']
      · by_cases hkk : k' = k <;> simp [hk', hkk, hk]
    · rw [feed_cons]
      simp only [ih₂, hdisc, List.mem_cons]
      constructor
      · rintro ((h | ⟨rfl, h⟩) | ⟨hk', h⟩)
        · exact Or.inl h
        · exact Or.inr ⟨Or.inl rfl, h⟩
        · exact Or.inr ⟨Or.inr hk', (htail k' hk').mp h⟩
      · rintro (h | ⟨rfl | hk', h⟩)
        · exact Or.inl (Or.inl h)
        · exact Or.inl (Or.inr ⟨rfl, h⟩)
        · exact Or.inr ⟨hk', (htail k' hk').mpr h⟩
    · rw [feed_cons, List.flatMap_cons]
      dsimp only
      rw [ih₃, List.flatMap_congr hfx, settleLog_eq]

@[simp] theorem settle_frame (n : Node C) :
    n.settle.1.m = n.m ∧ n.settle.1.policy = n.policy ∧ n.settle.1.radius = n.radius
      ∧ n.settle.1.peers = n.peers ∧ n.settle.1.cursors = n.cursors
      ∧ n.settle.1.binOf = n.binOf ∧ n.settle.1.assigned = n.assigned := by
  rw [settle]
  exact ⟨feed_frame _ Node.m (by simp) _ _, feed_frame _ Node.policy (by simp) _ _,
    feed_frame _ Node.radius (by simp) _ _, feed_frame _ Node.peers (by simp) _ _,
    feed_frame _ Node.cursors (by simp) _ _, feed_frame _ Node.binOf (by simp) _ _,
    feed_frame _ Node.assigned (by simp) _ _⟩

/-- Settling advances every log. -/
theorem logs_settle (n : Node C) (k : PeerBin) :
    n.settle.1.logs[k]? = n.logs[k]?.map fun l => (l.advance (settledIn n.m)).1 := by
  rw [settle, (feed_settleLog _ (nodup_keys n.logs) n).1 k]
  simp only [ExtTreeMap.mem_keys]
  split
  · next hk =>
    obtain ⟨l, hl⟩ := Option.isSome_iff_exists.mp (ExtTreeMap.isSome_getElem?_iff_mem.mpr hk)
    simp [settledLog, log, hl]
  · next hk =>
    have hn : n.logs[k]? = none := by
      rw [← Option.not_isSome_iff_eq_none]
      exact fun h => hk (ExtTreeMap.isSome_getElem?_iff_mem.mp h)
    simp [hn]

theorem open_settle (n : Node C) (k : PeerBin) :
    k ∈ n.settle.1.disc.offerOpen ↔ k ∈ n.disc.offerOpen ∨ k ∈ n.logs ∧ n.tailOffered k := by
  rw [settle, (feed_settleLog _ (nodup_keys n.logs) n).2.1 k, ExtTreeMap.mem_keys]

theorem effects_settle (n : Node C) : n.settle.2 = n.logs.keys.flatMap n.settleEffects := by
  rw [settle, (feed_settleLog _ (nodup_keys n.logs) n).2.2]

/-! ## Prune -/

theorem mem_windowed (n : Node C) (c : C) :
    c ∈ n.windowed ↔ ∃ (k : PeerBin) (l : PeerBinLog C) (b : ℕ),
      n.logs[k]? = some l ∧ l.entries[b]? = some c := by
  simp only [windowed, ExtTreeSet.mem_ofList, List.contains_iff_mem, List.mem_flatMap,
    List.mem_map, Prod.exists, PeerBinLog.mem_unsettled, mem_entries]
  constructor
  · rintro ⟨k, l, hl, b, c', hc, rfl⟩
    exact ⟨k, l, b, hl, hc⟩
  · rintro ⟨k, l, b, hl, hc⟩
    exact ⟨k, l, hl, b, c, hc, rfl⟩

/-- `c` is settled, known and in no window. -/
def Pruned (n : Node C) (c : C) : Prop :=
  c ∈ n.binOf ∧ (c ∈ n.m.got ∨ c ∈ n.m.rejected) ∧ c ∉ n.windowed

/-- Forgetting a list of settled ids. -/
theorem foldl_forget (cs : List C) (m : PullState C) :
    (∀ c p, (cs.foldl (fun m c => (m.forget c).1) m).Held c p ↔
        ¬ (c ∈ cs ∧ (c ∈ m.got ∨ c ∈ m.rejected)) ∧ m.Held c p)
      ∧ (∀ c p, (cs.foldl (fun m c => (m.forget c).1) m).Barred c p ↔
        ¬ (c ∈ cs ∧ (c ∈ m.got ∨ c ∈ m.rejected)) ∧ m.Barred c p)
      ∧ ∀ c, c ∈ (cs.foldl (fun m c => (m.forget c).1) m).arrived ↔
        ¬ (c ∈ cs ∧ (c ∈ m.got ∨ c ∈ m.rejected)) ∧ c ∈ m.arrived := by
  induction cs generalizing m with
  | nil => simp
  | cons d cs ih =>
    obtain ⟨h₁, h₂, h₃⟩ := ih (m.forget d).1
    refine ⟨fun c p => ?_, fun c p => ?_, fun c => ?_⟩
    · rw [List.foldl_cons, h₁]
      simp only [forget_frame, held_forget, List.mem_cons]
      grind
    · rw [List.foldl_cons, h₂]
      simp only [forget_frame, barred_forget, List.mem_cons]
      grind
    · rw [List.foldl_cons, h₃]
      simp only [forget_frame, mem_arrived_forget, List.mem_cons]
      grind

/-- What pruning does to the node, over the list of what it prunes. -/
theorem prune_eq (n : Node C) : ∃ done : List C, (∀ c, c ∈ done ↔ n.Pruned c)
    ∧ n.prune = { n with
        m := done.foldl (fun m c => (m.forget c).1) n.m
        binOf := done.foldl (fun b c => b.erase c) n.binOf } := by
  have hfold : ∀ (cs : List C) (n : Node C),
      cs.foldl (fun n c => { n with m := (n.m.forget c).1, binOf := n.binOf.erase c }) n
        = { n with
            m := cs.foldl (fun m c => (m.forget c).1) n.m
            binOf := cs.foldl (fun b c => b.erase c) n.binOf } := by
    intro cs
    induction cs with
    | nil => exact fun _ => rfl
    | cons c cs ih => exact fun n => ih _
  refine ⟨_, fun c => ?_, hfold _ n⟩
  simp [Pruned, settledIn_iff]

theorem getElem?_foldl_erase {W : Type} (cs : List C) (b : BTreeMap C W) (c : C) :
    (cs.foldl (fun b c => b.erase c) b)[c]? = if c ∈ cs then none else b[c]? := by
  induction cs generalizing b with
  | nil => simp
  | cons d cs ih =>
    rw [List.foldl_cons, ih, ExtTreeMap.getElem?_erase]
    by_cases hc : c ∈ cs <;> by_cases hd : d = c <;> simp [hc, hd, Ne.symm]

theorem prune_frame (n : Node C) :
    n.prune.policy = n.policy ∧ n.prune.radius = n.radius ∧ n.prune.peers = n.peers
      ∧ n.prune.cursors = n.cursors ∧ n.prune.logs = n.logs ∧ n.prune.assigned = n.assigned
      ∧ n.prune.disc = n.disc := by
  obtain ⟨done, -, h⟩ := n.prune_eq
  rw [h]
  and_intros <;> rfl

theorem prune_machine_frame (n : Node C) :
    n.prune.m.cfg = n.m.cfg ∧ n.prune.m.want = n.m.want ∧ n.prune.m.Leased = n.m.Leased
      ∧ n.prune.m.got = n.m.got ∧ n.prune.m.rejected = n.m.rejected
      ∧ n.prune.m.ndeliv = n.m.ndeliv ∧ n.prune.m.npre = n.m.npre := by
  obtain ⟨done, -, h⟩ := n.prune_eq
  rw [h]
  dsimp only
  refine ⟨?_, ?_, ?_, ?_, ?_, ?_, ?_⟩ <;> exact foldl_frame _ _ done (by simp) n.m

theorem calls_prune (n : Node C) : Calls n.m n.prune.m := by
  obtain ⟨done, -, h⟩ := n.prune_eq
  rw [h]
  exact Calls.foldl _ done (fun m c => .single ⟨.forget c, trivial, rfl⟩) n.m

/-- Pruning forgets the holders, the bars and the arrival of exactly what it prunes. -/
theorem held_prune (n : Node C) (c : C) (p : PeerId) :
    n.prune.m.Held c p ↔ ¬ n.Pruned c ∧ n.m.Held c p := by
  obtain ⟨done, hmem, h⟩ := n.prune_eq
  rw [h]
  dsimp only
  rw [(foldl_forget done n.m).1 c p, hmem]
  exact and_congr_left' (not_congr (and_iff_left_of_imp fun hp => hp.2.1))

theorem barred_prune (n : Node C) (c : C) (p : PeerId) :
    n.prune.m.Barred c p ↔ ¬ n.Pruned c ∧ n.m.Barred c p := by
  obtain ⟨done, hmem, h⟩ := n.prune_eq
  rw [h]
  dsimp only
  rw [(foldl_forget done n.m).2.1 c p, hmem]
  exact and_congr_left' (not_congr (and_iff_left_of_imp fun hp => hp.2.1))

theorem mem_arrived_prune (n : Node C) (c : C) :
    c ∈ n.prune.m.arrived ↔ ¬ n.Pruned c ∧ c ∈ n.m.arrived := by
  obtain ⟨done, hmem, h⟩ := n.prune_eq
  rw [h]
  dsimp only
  rw [(foldl_forget done n.m).2.2 c, hmem]
  exact and_congr_left' (not_congr (and_iff_left_of_imp fun hp => hp.2.1))

/-- Their bins go with them. -/
theorem binOf_prune (n : Node C) (c : C) (b : Bin) :
    n.prune.binOf[c]? = some b ↔ ¬ n.Pruned c ∧ n.binOf[c]? = some b := by
  obtain ⟨done, hmem, h⟩ := n.prune_eq
  rw [h]
  dsimp only
  rw [getElem?_foldl_erase, ← hmem]
  by_cases hc : c ∈ done <;> simp [hc]

/-! ## Reset -/

/-- Resetting a list of ids clears exactly the exhausted bars among them. -/
theorem barred_foldl_reset (cs : List C) (m : PullState C) (c : C) (p : PeerId) :
    (cs.foldl (fun m c => (m.resetExcluded c).1) m).Barred c p ↔
      m.Barred c p ∧ ¬ (c ∈ cs ∧ m.canResetExcluded c) := by
  induction cs generalizing m with
  | nil => simp
  | cons d cs ih =>
    rw [List.foldl_cons, ih, barred_resetExcluded, List.mem_cons]
    by_cases hd : d = c ∧ m.canResetExcluded d
    · obtain ⟨rfl, hr⟩ := hd
      simp [hr]
    · have hsame : (m.resetExcluded d).1.canResetExcluded c ↔ m.canResetExcluded c := by
        rw [canResetExcluded_iff, canResetExcluded_iff]
        simp only [resetExcluded_frame, barred_resetExcluded]
        simp [hd]
      by_cases hdc : d = c
      · subst hdc
        have hr : ¬ m.canResetExcluded d := fun h => hd ⟨rfl, h⟩
        simp [hsame, hr]
      · have hcd : c ≠ d := fun h => hdc h.symm
        simp [hsame, hdc, hcd]

@[simp] theorem reset_frame (n : Node C) :
    n.reset.policy = n.policy ∧ n.reset.radius = n.radius ∧ n.reset.peers = n.peers
      ∧ n.reset.cursors = n.cursors ∧ n.reset.logs = n.logs ∧ n.reset.binOf = n.binOf
      ∧ n.reset.assigned = n.assigned ∧ n.reset.disc = n.disc := by
  and_intros <;> rfl

theorem reset_machine_frame (n : Node C) :
    n.reset.m.cfg = n.m.cfg ∧ n.reset.m.want = n.m.want ∧ n.reset.m.Leased = n.m.Leased
      ∧ n.reset.m.Held = n.m.Held ∧ n.reset.m.arrived = n.m.arrived
      ∧ n.reset.m.got = n.m.got ∧ n.reset.m.rejected = n.m.rejected
      ∧ n.reset.m.ndeliv = n.m.ndeliv ∧ n.reset.m.npre = n.m.npre := by
  refine ⟨?_, ?_, ?_, ?_, ?_, ?_, ?_, ?_, ?_⟩ <;> exact foldl_frame _ _ _ (by simp) n.m

theorem calls_reset (n : Node C) : Calls n.m n.reset.m :=
  Calls.foldl _ _ (fun _ c => .single ⟨.resetExcluded c, trivial, rfl⟩) n.m

theorem barred_reset (n : Node C) (c : C) (p : PeerId) :
    n.reset.m.Barred c p ↔ n.m.Barred c p ∧ ¬ (c ∈ n.binOf ∧ n.m.canResetExcluded c) := by
  rw [reset]
  dsimp only
  rw [barred_foldl_reset, ExtTreeMap.mem_keys]

/-! ## Schedule -/

namespace Sched

/-- The triples batched for `k`. -/
def batch (s : Sched C) (k : PeerBin) : List C := s.batches[k]?.getD []

theorem mem_enabled (s : Sched C) (c : C) (p : PeerId) :
    (c, p) ∈ s.enabled ↔ s.n.m.claimable c p
      ∧ s.committed[(⟨p, s.n.bin c⟩ : PeerBin)]?.getD 0 < s.n.policy.window := by
  simp [enabled, mem_enabledWants]

/-- The policy picks among the enabled wants. -/
theorem mem_enabled_of_pick {s : Sched C} {c : C} {p : PeerId} (hp : s.leastLoaded c = some p) :
    (c, p) ∈ s.enabled := by
  have h := List.argmin_mem hp
  simp only [List.mem_map, List.mem_filter, beq_iff_eq] at h
  obtain ⟨⟨c', p'⟩, ⟨he, rfl⟩, rfl⟩ := h
  exact he

/-- Nothing is picked only where nothing is enabled. -/
theorem deepest_eq_none {s : Sched C} : s.deepest = none ↔ s.enabled = [] := by
  rw [deepest, Option.map_eq_none_iff, List.argmax_eq_none]

theorem leastLoaded_ne_none {s : Sched C} {c : C} (hc : s.deepest = some c) :
    s.leastLoaded c ≠ none := by
  rw [leastLoaded, ne_eq, List.argmin_eq_none, List.map_eq_nil_iff, List.filter_eq_nil_iff]
  obtain ⟨e, he, rfl⟩ := Option.map_eq_some_iff.mp hc
  push Not
  exact ⟨e, List.argmax_mem he, by simp⟩

/-- What holds throughout the scheduling loop started at `n`: only the leases, the routing key and
the batches move, and the batches are the new leases, each under the bin of its triple. -/
structure Inv (n : Node C) (s : Sched C) : Prop where
  policy : s.n.policy = n.policy
  radius : s.n.radius = n.radius
  peers : s.n.peers = n.peers
  cursors : s.n.cursors = n.cursors
  logs : s.n.logs = n.logs
  binOf : s.n.binOf = n.binOf
  disc : s.n.disc = n.disc
  calls : Calls n.m s.n.m
  holders : s.n.m.holders = n.m.holders
  excluded : s.n.m.excluded = n.m.excluded
  arrived : s.n.m.arrived = n.m.arrived
  got : s.n.m.got = n.m.got
  rejected : s.n.m.rejected = n.m.rejected
  ndeliv : s.n.m.ndeliv = n.m.ndeliv
  npre : s.n.m.npre = n.m.npre
  leased : ∀ c p, s.n.m.Leased c p ↔ n.m.Leased c p ∨ c ∈ s.batch ⟨p, n.bin c⟩
  fresh : ∀ k, ∀ c ∈ s.batch k, n.bin c = k.bin ∧ ¬ n.m.Leased c k.peer ∧ n.m.Held c k.peer
    ∧ c ∈ n.m.arrived ∧ c ∉ n.m.got
  nodup : ∀ k, (s.batch k).Nodup
  nonempty : ∀ k : PeerBin, s.batches[k]? ≠ some []
  committed : ∀ k : PeerBin, s.committed[k]?.getD 0 = (s.batch k).length

theorem Inv.held_eq {n : Node C} {s : Sched C} (h : Inv n s) : s.n.m.Held = n.m.Held := by
  unfold Held
  rw [h.holders]

theorem Inv.barred_eq {n : Node C} {s : Sched C} (h : Inv n s) : s.n.m.Barred = n.m.Barred := by
  unfold Barred
  rw [h.excluded]

theorem inv_start (n : Node C) : Inv n ⟨n, ∅, ∅⟩ := by
  constructor <;> first | rfl | exact .refl | simp [batch]

/-- Committing to an enabled want keeps the invariant. -/
theorem Inv.commit {n : Node C} {s : Sched C} (h : Inv n s) {c : C} {p : PeerId}
    (he : (c, p) ∈ s.enabled) : Inv n (s.commit c p) := by
  obtain ⟨hcl, -⟩ := (s.mem_enabled c p).mp he
  obtain ⟨harr, hheld, hgot, hnl, -⟩ := (s.n.m.claimable_iff c p).mp hcl
  have hbin : ∀ d, s.n.bin d = n.bin d := fun d => by rw [bin, bin, h.binOf]
  -- the batches after: `c` joins its own
  have hbatch : ∀ k, (s.commit c p).batch k =
      if (⟨p, n.bin c⟩ : PeerBin) = k then s.batch k ++ [c] else s.batch k := by
    intro k
    simp only [batch, Sched.commit, hbin, ExtTreeMap.getElem?_insert, compare_eq_iff_eq]
    split
    · next hk => simp [hk]
    · rfl
  have hnew : ¬ n.m.Leased c p ∧ c ∉ s.batch ⟨p, n.bin c⟩ := by
    rw [← not_or, ← h.leased]
    exact hnl
  refine ⟨h.policy, h.radius, h.peers, h.cursors, h.logs, h.binOf, h.disc, ?_, ?_, ?_, ?_, ?_, ?_,
    ?_, ?_, ?_, ?_, ?_, ?_, ?_⟩
  · exact h.calls.tail ⟨.want c p, trivial, rfl⟩
  · simpa [Sched.commit] using h.holders
  · simpa [Sched.commit] using h.excluded
  · simpa [Sched.commit] using h.arrived
  · simpa [Sched.commit] using h.got
  · simpa [Sched.commit] using h.rejected
  · simpa [Sched.commit] using h.ndeliv
  · simpa [Sched.commit] using h.npre
  · intro d q
    rw [hbatch]
    simp only [Sched.commit, leased_wantFrom, hcl, true_and, h.leased]
    split
    · next hk =>
      simp only [PeerBin.mk.injEq] at hk
      grind
    · next hk =>
      simp only [PeerBin.mk.injEq] at hk
      grind
  · intro k d hd
    rw [hbatch] at hd
    split at hd
    · next hk =>
      rcases List.mem_append.mp hd with hd | hd
      · exact h.fresh k d hd
      · obtain rfl := List.mem_singleton.mp hd
        subst hk
        refine ⟨rfl, hnew.1, ?_, ?_, ?_⟩
        · rw [← h.held_eq]; exact hheld
        · rw [← h.arrived]; exact harr
        · rw [← h.got]; exact hgot
    · exact h.fresh k d hd
  · intro k
    rw [hbatch]
    split
    · next hk =>
      subst hk
      rw [List.nodup_append]
      exact ⟨h.nodup _, by simp, by grind⟩
    · exact h.nodup k
  · intro k
    simp only [Sched.commit, ExtTreeMap.getElem?_insert]
    split
    · simp
    · exact h.nonempty k
  · intro k
    rw [hbatch]
    simp only [Sched.commit, hbin, ExtTreeMap.getElem?_insert, compare_eq_iff_eq]
    split
    · next hk =>
      subst hk
      simp [h.committed]
    · exact h.committed k

/-- The held pairs that are not leased: what the loop uses up. -/
def unleased (s : Sched C) : List (C × PeerId) :=
  (holderPairs s.n.m).filter fun e => !setContains s.n.m.want e.1 e.2

theorem mem_holderPairs (m : PullState C) (c : C) (p : PeerId) :
    (c, p) ∈ holderPairs m ↔ m.Held c p := by
  simp only [holderPairs, List.mem_flatMap, List.mem_map, ExtTreeSet.mem_toList, Prod.mk.injEq,
    Held, setContains_iff_mem_toList]
  constructor
  · rintro ⟨e, he, q, hq, rfl, rfl⟩
    exact ⟨e.2, he, hq⟩
  · rintro ⟨hs, he, hp⟩
    exact ⟨(c, hs), he, p, hp, rfl, rfl⟩

theorem unleased_commit_lt {s : Sched C} {c : C} {p : PeerId} (he : (c, p) ∈ s.enabled) :
    (s.commit c p).unleased.length < s.unleased.length := by
  obtain ⟨hcl, -⟩ := (s.mem_enabled c p).mp he
  obtain ⟨-, hheld, -, hnl, -⟩ := (s.n.m.claimable_iff c p).mp hcl
  have hpairs : holderPairs (s.commit c p).n.m = holderPairs s.n.m := by
    simp [holderPairs, Sched.commit]
  have hsub : ∀ e : C × PeerId, setContains s.n.m.want e.1 e.2 →
      setContains (s.commit c p).n.m.want e.1 e.2 := fun e h =>
    (leased_wantFrom s.n.m c e.1 p e.2).mpr (Or.inr h)
  have hmem : (c, p) ∈ s.unleased := by
    rw [unleased, List.mem_filter, mem_holderPairs]
    exact ⟨hheld, by simpa [Leased] using hnl⟩
  have hgone : (c, p) ∉ (s.commit c p).unleased := by
    rw [unleased, List.mem_filter]
    have hl : (s.commit c p).n.m.Leased c p :=
      (leased_wantFrom s.n.m c c p p).mpr (Or.inl ⟨hcl, rfl, rfl⟩)
    simp only [Leased] at hl
    simp [hl]
  have hle : (s.commit c p).unleased.Sublist s.unleased := by
    rw [unleased, unleased, hpairs]
    exact List.monotone_filter_right _ fun e h => by
      have := hsub e
      simp only [Bool.not_eq_true'] at h ⊢
      by_contra hn
      simp only [Bool.not_eq_false] at hn
      rw [this hn] at h
      cases h
  refine lt_of_le_of_ne hle.length_le fun heq => hgone ?_
  rw [hle.eq_of_length heq]
  exact hmem

/-- With the fuel there is, the loop keeps the invariant and stops only where nothing is enabled. -/
theorem loop_spec {n : Node C} (fuel : ℕ) {s : Sched C} (h : Inv n s)
    (hfuel : s.unleased.length ≤ fuel) : Inv n (loop fuel s) ∧ (loop fuel s).enabled = [] := by
  induction fuel generalizing s with
  | zero =>
    refine ⟨h, List.eq_nil_iff_forall_not_mem.mpr ?_⟩
    rintro ⟨c, p⟩ he
    have := unleased_commit_lt (s := s) he
    omega
  | succ fuel ih =>
    rw [loop]
    split
    · next hd => exact ⟨h, deepest_eq_none.mp hd⟩
    · next c hd =>
      split
      · next hl => exact absurd hl (leastLoaded_ne_none hd)
      · next p hl =>
        have he := mem_enabled_of_pick hl
        have := unleased_commit_lt he
        exact ih (h.commit he) (by omega)

end Sched

/-- Where the scheduling pass from `n` ends. -/
def scheduled (n : Node C) : Sched C := Sched.loop (holderPairs n.m).length ⟨n, ∅, ∅⟩

theorem scheduled_spec (n : Node C) : Sched.Inv n n.scheduled ∧ n.scheduled.enabled = [] :=
  Sched.loop_spec _ (Sched.inv_start n) (List.length_filter_le _ _)

/-- What the pass fetches from `k`. -/
def fetched (n : Node C) (k : PeerBin) : List C := n.scheduled.batch k

/-- The fetches are the batches, none of them empty. -/
theorem fetch_mem_schedule (n : Node C) (p : PeerId) (b : Bin) (want : List C) :
    .fetch p b want ∈ n.schedule.2 ↔ want ≠ [] ∧ want = n.fetched ⟨p, b⟩ := by
  have hinv := n.scheduled_spec.1
  change _ ∈ n.scheduled.batches.toList.map _ ↔ _
  simp only [List.mem_map, Prod.exists, mem_entries, Effect.fetch.injEq, fetched, Sched.batch]
  constructor
  · rintro ⟨⟨p', b'⟩, want', hw, rfl, rfl, rfl⟩
    refine ⟨?_, by simp [hw]⟩
    rintro rfl
    exact hinv.nonempty _ hw
  · rintro ⟨hne, hw⟩
    cases hb : n.scheduled.batches[(⟨p, b⟩ : PeerBin)]? with
    | none =>
      rw [hb] at hw
      exact absurd hw hne
    | some want' =>
      rw [hb] at hw
      exact ⟨⟨p, b⟩, want', hb, rfl, rfl, hw.symm⟩

/-- The pass emits fetches only. -/
theorem mem_schedule {n : Node C} {fx : Effect C} (h : fx ∈ n.schedule.2) :
    ∃ p b want, fx = .fetch p b want := by
  change _ ∈ n.scheduled.batches.toList.map _ at h
  obtain ⟨e, -, rfl⟩ := List.mem_map.mp h
  exact ⟨_, _, _, rfl⟩

/-! ## The round -/

/-- The node as the scheduling pass of a round finds it. -/
def planned (n : Node C) : Node C := n.settle.1.prune.reset

/-- What a round forgets: the known settled ids that have left every window once it has settled. -/
def RoundPruned (n : Node C) (c : C) : Prop := n.settle.1.Pruned c

theorem planned_frame (n : Node C) :
    n.planned.policy = n.policy ∧ n.planned.radius = n.radius ∧ n.planned.peers = n.peers
      ∧ n.planned.cursors = n.cursors ∧ n.planned.logs = n.settle.1.logs
      ∧ n.planned.disc = n.settle.1.disc := by
  obtain ⟨h₁, h₂, h₃, h₄, h₅, -, h₆⟩ := n.settle.1.prune_frame
  obtain ⟨-, s₂, s₃, s₄, s₅, -, -⟩ := n.settle_frame
  exact ⟨h₁.trans s₂, h₂.trans s₃, h₃.trans s₄, h₄.trans s₅, h₅, h₆⟩

theorem planned_machine_frame (n : Node C) :
    n.planned.m.cfg = n.m.cfg ∧ n.planned.m.want = n.m.want ∧ n.planned.m.Leased = n.m.Leased
      ∧ n.planned.m.got = n.m.got ∧ n.planned.m.rejected = n.m.rejected
      ∧ n.planned.m.ndeliv = n.m.ndeliv ∧ n.planned.m.npre = n.m.npre := by
  obtain ⟨h₁, h₂, h₃, h₄, h₅, h₆, h₇⟩ := n.settle.1.prune_machine_frame
  obtain ⟨r₁, r₂, r₃, -, -, r₄, r₅, r₆, r₇⟩ := n.settle.1.prune.reset_machine_frame
  rw [n.settle_frame.1] at h₁ h₂ h₃ h₄ h₅ h₆ h₇
  exact ⟨r₁.trans h₁, r₂.trans h₂, r₃.trans h₃, r₄.trans h₄, r₅.trans h₅, r₆.trans h₆, r₇.trans h₇⟩

theorem calls_planned (n : Node C) : Calls n.m n.planned.m := by
  have h := n.settle.1.calls_prune.trans n.settle.1.prune.calls_reset
  rwa [n.settle_frame.1] at h

theorem held_planned (n : Node C) (c : C) (p : PeerId) :
    n.planned.m.Held c p ↔ ¬ n.RoundPruned c ∧ n.m.Held c p := by
  rw [planned, n.settle.1.prune.reset_machine_frame.2.2.2.1, held_prune, n.settle_frame.1,
    RoundPruned]

theorem mem_arrived_planned (n : Node C) (c : C) :
    c ∈ n.planned.m.arrived ↔ ¬ n.RoundPruned c ∧ c ∈ n.m.arrived := by
  rw [planned, n.settle.1.prune.reset_machine_frame.2.2.2.2.1, mem_arrived_prune, n.settle_frame.1,
    RoundPruned]

theorem binOf_planned (n : Node C) (c : C) (b : Bin) :
    n.planned.binOf[c]? = some b ↔ ¬ n.RoundPruned c ∧ n.binOf[c]? = some b := by
  rw [planned, (reset_frame _).2.2.2.2.2.1, binOf_prune, n.settle_frame.2.2.2.2.2.1, RoundPruned]

theorem round_fst (n : Node C) : n.round.1 = n.planned.scheduled.n := by
  rw [round, schedule, ← planned, scheduled]

theorem round_snd (n : Node C) : n.round.2 = n.settle.2 ++ n.planned.schedule.2 := rfl

/-- What a round keeps. -/
theorem round_frame (n : Node C) :
    n.round.1.policy = n.policy ∧ n.round.1.radius = n.radius ∧ n.round.1.peers = n.peers
      ∧ n.round.1.cursors = n.cursors := by
  have hinv := n.planned.scheduled_spec.1
  obtain ⟨h₁, h₂, h₃, h₄, -, -⟩ := n.planned_frame
  rw [round_fst]
  exact ⟨hinv.policy.trans h₁, hinv.radius.trans h₂, hinv.peers.trans h₃, hinv.cursors.trans h₄⟩

theorem logs_round (n : Node C) (k : PeerBin) :
    n.round.1.logs[k]? = n.logs[k]?.map fun l => (l.advance (settledIn n.m)).1 := by
  rw [round_fst, n.planned.scheduled_spec.1.logs, n.planned_frame.2.2.2.2.1, logs_settle]

theorem open_round (n : Node C) (k : PeerBin) :
    k ∈ n.round.1.disc.offerOpen ↔ k ∈ n.disc.offerOpen ∨ k ∈ n.logs ∧ n.tailOffered k := by
  rw [round_fst, n.planned.scheduled_spec.1.disc, n.planned_frame.2.2.2.2.2, open_settle]

theorem calls_round (n : Node C) : Calls n.m n.round.1.m := by
  rw [round_fst]
  exact n.calls_planned.trans n.planned.scheduled_spec.1.calls

/-- A round settles nothing by itself: it stores and rejects no id. -/
theorem settled_round (n : Node C) :
    n.round.1.m.got = n.m.got ∧ n.round.1.m.rejected = n.m.rejected
      ∧ n.round.1.m.ndeliv = n.m.ndeliv ∧ n.round.1.m.npre = n.m.npre := by
  have hinv := n.planned.scheduled_spec.1
  obtain ⟨-, -, -, h₁, h₂, h₃, h₄⟩ := n.planned_machine_frame
  rw [round_fst]
  exact ⟨hinv.got.trans h₁, hinv.rejected.trans h₂, hinv.ndeliv.trans h₃, hinv.npre.trans h₄⟩

theorem held_round (n : Node C) (c : C) (p : PeerId) :
    n.round.1.m.Held c p ↔ ¬ n.RoundPruned c ∧ n.m.Held c p := by
  rw [round_fst, n.planned.scheduled_spec.1.held_eq, held_planned]

theorem mem_arrived_round (n : Node C) (c : C) :
    c ∈ n.round.1.m.arrived ↔ ¬ n.RoundPruned c ∧ c ∈ n.m.arrived := by
  rw [round_fst, n.planned.scheduled_spec.1.arrived, mem_arrived_planned]

theorem binOf_round (n : Node C) (c : C) (b : Bin) :
    n.round.1.binOf[c]? = some b ↔ ¬ n.RoundPruned c ∧ n.binOf[c]? = some b := by
  rw [round_fst, n.planned.scheduled_spec.1.binOf, binOf_planned]

/-- The new leases of a round are what it fetches, each under the bin of its triple. -/
theorem leased_round (n : Node C) (c : C) (p : PeerId) :
    n.round.1.m.Leased c p ↔ n.m.Leased c p ∨ c ∈ n.planned.fetched ⟨p, n.planned.bin c⟩ := by
  rw [round_fst, n.planned.scheduled_spec.1.leased, n.planned_machine_frame.2.2.1, fetched]

theorem fetch_mem_round (n : Node C) (p : PeerId) (b : Bin) (want : List C) :
    .fetch p b want ∈ n.round.2 ↔ want ≠ [] ∧ want = n.planned.fetched ⟨p, b⟩ := by
  rw [round_snd, List.mem_append, fetch_mem_schedule, or_iff_right]
  rw [effects_settle, List.mem_flatMap]
  rintro ⟨k, -, h⟩
  simp [settleEffects] at h

end Melissi.Node
