import Melissi.Common.Fair
import Melissi.Machine.PullSyncerE

/-!
# What the design model guarantees

The invariants and the temporal properties of `PullSyncerE.tla`, for every instance of its
constants. The invariants hold whatever the knobs, but for the two that say deduplication. With
every repair on, a behaviour that is fair to the protocol's own steps fetches every chunk and leaves
no claim behind, under any priorities, any misfires and any churn within the budgets; and live
chunks are the only ones that fetching them on arrival is needed for.
-/

namespace Melissi.PullSyncerE

open Melissi.Common

variable {C P : Type} [DecidableEq C] [DecidableEq P]

/-- What the model assumes of its constants. -/
structure Constants.Assumed (K : Constants C P) : Prop where
  chunks : K.Chunks.Finite
  peers : K.Peers.Finite
  holds : ∀ p ∈ K.Peers, K.Holds p ⊆ K.Chunks
  supply : ∀ c ∈ K.Chunks, ∃ p ∈ K.Honest, c ∈ K.Holds p
  live : K.LiveChunks ⊆ K.Chunks

/-- The steps the protocol owes: misfires and churn may happen and never must. -/
def Label.Owed : Label C P → Prop
  | .spuriousTimeout _ _ | .lose _ _ | .gain _ _ => False
  | _ => True

/-- A behaviour from the initial state that is weakly fair to the steps that are owed. -/
def Spec (K : Constants C P) : (ℕ → State C P) → Prop := FairRun (Action K) Label.Owed (Init K)

def Reaches (K : Constants C P) : State C P → Prop := Relation.ReflTransGen (Next K) (Init K)

section Properties

omit [DecidableEq C] [DecidableEq P]

variable (K : Constants C P) (s : State C P)

/-- The types of the variables. -/
structure TypeOK : Prop where
  got : s.got ⊆ K.Chunks
  want : ∀ c ∈ K.Chunks, s.want c ⊆ K.Peers
  failed : ∀ c ∈ K.Chunks, s.failed c ⊆ K.Peers
  arrived : s.arrived ⊆ K.Chunks
  holds : ∀ p ∈ K.Peers, s.holds p ⊆ K.Chunks
  tmo : s.tmo ≤ K.TimeoutBudget
  chn : s.chn ≤ K.ChurnBudget

/-- Exactly-once delivery. -/
def ConflictFree : Prop := ¬ s.conflict

/-- As many deliveries as chunks stored. -/
def DeliveryFloor : Prop := (s.ndeliv : ℕ∞) = s.got.encard

/-- Churn never strips a chunk of its last honest holder. -/
def SupplyInv : Prop := ∀ c ∈ K.Chunks, ∃ p ∈ K.Honest, c ∈ s.holds p

/-- With deduplication on, at most one claim on each chunk. -/
def DedupInv : Prop := K.Dedup → ∀ c ∈ K.Chunks, (s.want c).encard ≤ 1

/-- Every claim can be acted on. -/
def ClaimsLive : Prop := ∀ c ∈ K.Chunks, ∀ p ∈ s.want c, c ∈ s.holds p ∧ p ∉ s.failed c

/-- With perfect attribution only byzantine peers are barred. -/
def NoFalseExclusion : Prop :=
  K.TimeoutBudget = 0 → ∀ c ∈ K.Chunks, s.failed c ⊆ K.Byzantine

variable (run : ℕ → State C P)

/-- Every chunk is fetched. -/
def Completeness : Prop := ∃ n, (run n).got = K.Chunks

/-- Every live chunk is delivered. -/
def Freshness : Prop := ∃ n, K.LiveChunks ⊆ (run n).got

/-- From some time on no claim is left. -/
def Quiescence : Prop := ∃ n, ∀ m, n ≤ m → ∀ c ∈ K.Chunks, (run m).want c = ∅

/-- The store only grows. -/
def Monotone : Prop := ∀ n, (run n).got ⊆ (run (n + 1)).got

end Properties

/-! ## The invariants -/

/-- What every step keeps, whatever the knobs. -/
structure Inv (K : Constants C P) (s : State C P) : Prop where
  got : s.got ⊆ s.arrived
  hist : K.HistChunks ⊆ s.arrived
  arrived : s.arrived ⊆ K.Chunks
  claimed : ∀ c, ∀ p ∈ s.want c, c ∈ s.arrived ∧ p ∈ K.Peers
  actionable : ∀ c, ∀ p ∈ s.want c, c ∈ s.holds p ∧ p ∉ s.failed c
  gated : ∀ c, ∀ p ∈ s.want c, c ∈ K.LiveChunks → K.EnableLive
  fetched : ∀ c ∈ s.got, c ∈ K.LiveChunks → K.EnableLive
  barred : ∀ c, ∀ p ∈ s.failed c, c ∈ K.Chunks ∧ p ∈ K.Peers
  holds : ∀ p ∈ K.Peers, s.holds p ⊆ K.Chunks
  supply : SupplyInv K s
  tmo : s.tmo ≤ K.TimeoutBudget
  chn : s.chn ≤ K.ChurnBudget
  attributed : K.TimeoutBudget = 0 → ∀ c, s.failed c ⊆ K.Byzantine

/-- What every step keeps with deduplication on. -/
structure Deduplicated (s : State C P) : Prop where
  conflict : ConflictFree s
  single : ∀ c, (s.want c).Subsingleton
  unstored : ∀ c, ∀ p ∈ s.want c, c ∉ s.got
  floor : DeliveryFloor s

variable {K : Constants C P} {s s' : State C P}

omit [DecidableEq P] in
theorem mem_want_release {c d : C} {p q : P} :
    q ∈ (release K c p s).want d ↔ ¬ (c = d ∧ p = q) ∧ q ∈ s.want d := mem_except_diff ..

omit [DecidableEq P] in
theorem want_release_subset (c : C) (p : P) (d : C) : (release K c p s).want d ⊆ s.want d :=
  fun _ hq => (mem_want_release.mp hq).2

omit [DecidableEq P] in
theorem mem_failed_release {c d : C} {p q : P} :
    q ∈ (release K c p s).failed d ↔ K.Exclude ∧ c = d ∧ p = q ∨ q ∈ s.failed d := by
  unfold release
  dsimp only
  split
  · next he => rw [mem_except_union, and_iff_right he]
  · next he => simp [he]

omit [DecidableEq C] [DecidableEq P] in
theorem inv_init (hK : K.Assumed) : Inv K (Init K) where
  got := Set.empty_subset _
  hist := subset_rfl
  arrived := Set.sdiff_subset
  claimed _ _ h := h.elim
  actionable _ _ h := h.elim
  gated _ _ h := h.elim
  fetched _ h := h.elim
  barred _ _ h := h.elim
  holds := hK.holds
  supply := hK.supply
  tmo := le_rfl
  chn := le_rfl
  attributed _ _ := Set.empty_subset _

omit [DecidableEq P] in
/-- Giving a claim up keeps the invariant, if an honest peer is barred only where the budget allows
misfires. -/
theorem Inv.release (h : Inv K s) {c : C} {p : P} (hc : c ∈ K.Chunks) (hp : p ∈ K.Peers)
    (hbyz : K.TimeoutBudget = 0 → p ∈ K.Byzantine) : Inv K (release K c p s) := by
  refine ⟨h.got, h.hist, h.arrived, fun d q hq => h.claimed d q (mem_want_release.mp hq).2,
    fun d q hq => ?_, fun d q hq => h.gated d q (mem_want_release.mp hq).2, h.fetched,
    fun d q hq => ?_,
    h.holds, h.supply, h.tmo, h.chn, fun hb d q hq => ?_⟩
  · obtain ⟨hne, hq⟩ := mem_want_release.mp hq
    obtain ⟨hheld, hbar⟩ := h.actionable d q hq
    exact ⟨hheld, fun hf => (mem_failed_release.mp hf).elim (fun he => hne he.2) hbar⟩
  · rcases mem_failed_release.mp hq with ⟨-, rfl, rfl⟩ | hq
    · exact ⟨hc, hp⟩
    · exact h.barred d q hq
  · rcases mem_failed_release.mp hq with ⟨-, -, rfl⟩ | hq
    · exact hbyz hb
    · exact h.attributed hb d hq

omit [DecidableEq P] in
theorem Inv.want (h : Inv K s) {c : C} {p : P} (hp : p ∈ K.Peers) (hs : Want K c p s s') :
    Inv K s' := by
  obtain ⟨hcl, rfl⟩ := hs
  have hwant : ∀ d q, q ∈ except s.want c (· ∪ {p}) d → c = d ∧ p = q ∨ q ∈ s.want d :=
    fun d q hq => mem_except_union _ _ _ _ _ |>.mp hq
  refine ⟨h.got, h.hist, h.arrived, fun d q hq => ?_, fun d q hq => ?_, fun d q hq => ?_,
    h.fetched, h.barred, h.holds, h.supply, h.tmo, h.chn, h.attributed⟩
  · rcases hwant d q hq with ⟨rfl, rfl⟩ | hq
    · exact ⟨hcl.arrived, hp⟩
    · exact h.claimed d q hq
  · rcases hwant d q hq with ⟨rfl, rfl⟩ | hq
    · exact ⟨hcl.held, hcl.unbarred⟩
    · exact h.actionable d q hq
  · rcases hwant d q hq with ⟨rfl, rfl⟩ | hq
    · exact hcl.gate
    · exact h.gated d q hq

omit [DecidableEq P] in
theorem Inv.deliver (h : Inv K s) {c : C} {p : P} (hs : Deliver K c p s s') : Inv K s' := by
  obtain ⟨-, hw, rfl⟩ := hs
  have hwant : ∀ d q, q ∈ except s.want c (· \ {p}) d → q ∈ s.want d :=
    fun d q hq => (mem_except_diff _ _ _ _ _ |>.mp hq).2
  exact ⟨Set.union_subset h.got (Set.singleton_subset_iff.mpr (h.claimed c p hw).1), h.hist,
    h.arrived, fun d q hq => h.claimed d q (hwant d q hq),
    fun d q hq => h.actionable d q (hwant d q hq), fun d q hq => h.gated d q (hwant d q hq),
    fun d hd => hd.elim (h.fetched d) fun he => he ▸ h.gated c p hw,
    h.barred, h.holds, h.supply, h.tmo, h.chn, h.attributed⟩

omit [DecidableEq P] in
theorem Inv.spuriousTimeout (h : Inv K s) {c : C} {p : P} (hc : c ∈ K.Chunks) (hp : p ∈ K.Peers)
    (hs : SpuriousTimeout K c p s s') : Inv K s' := by
  obtain ⟨htmo, -, -, -, rfl⟩ := hs
  -- there is a budget, so nothing is said about attribution
  have hbudget : K.TimeoutBudget ≠ 0 := fun hz => by
    have := h.tmo
    omega
  have hrel := h.release hc hp fun hz => absurd hz hbudget
  exact ⟨hrel.got, hrel.hist, hrel.arrived, hrel.claimed, hrel.actionable, hrel.gated,
    hrel.fetched, hrel.barred, hrel.holds, hrel.supply, (Nat.sub_le _ _).trans h.tmo, hrel.chn,
    fun hz => absurd hz hbudget⟩

/-- A holding that is lost takes the claim on it along, and leaves an honest one. -/
theorem Inv.lose (h : Inv K s) {c : C} {p : P} (hs : Lose K c p s s') : Inv K s' := by
  obtain ⟨-, -, -, ⟨r, ⟨hr, hrp⟩, hcr⟩, rfl⟩ := hs
  have hwant : ∀ d q, q ∈ except s.want c (· \ {p}) d → ¬ (c = d ∧ p = q) ∧ q ∈ s.want d :=
    fun d q hq => mem_except_diff _ _ _ _ _ |>.mp hq
  have hholds : ∀ d q, d ∈ except s.holds p (· \ {c}) q ↔ ¬ (p = q ∧ c = d) ∧ d ∈ s.holds q :=
    fun d q => mem_except_diff _ _ _ _ _
  refine ⟨h.got, h.hist, h.arrived, fun d q hq => h.claimed d q (hwant d q hq).2,
    fun d q hq => ?_, fun d q hq => h.gated d q (hwant d q hq).2, h.fetched, h.barred,
    fun q hq d hd => h.holds q hq ((hholds d q).mp hd).2, fun d hd => ?_, h.tmo,
    (Nat.sub_le _ _).trans h.chn, h.attributed⟩
  · obtain ⟨hne, hq⟩ := hwant d q hq
    obtain ⟨hheld, hbar⟩ := h.actionable d q hq
    exact ⟨(hholds d q).mpr ⟨fun he => hne he.symm, hheld⟩, hbar⟩
  · by_cases hcd : c = d
    · subst hcd
      exact ⟨r, hr, (hholds c r).mpr ⟨fun he => hrp he.1.symm, hcr⟩⟩
    · obtain ⟨q, hq, hdq⟩ := h.supply d hd
      exact ⟨q, hq, (hholds d q).mpr ⟨fun he => hcd he.2, hdq⟩⟩

omit [DecidableEq C] in
theorem Inv.gain (h : Inv K s) {c : C} {p : P} (hc : c ∈ K.Chunks) (hs : Gain c p s s') :
    Inv K s' := by
  obtain ⟨-, -, -, rfl⟩ := hs
  have hholds : ∀ d q, d ∈ except s.holds p (· ∪ {c}) q ↔ p = q ∧ c = d ∨ d ∈ s.holds q :=
    fun d q => mem_except_union _ _ _ _ _
  refine ⟨h.got, h.hist, h.arrived, h.claimed,
    fun d q hq => ⟨(hholds d q).mpr (.inr (h.actionable d q hq).1), (h.actionable d q hq).2⟩,
    h.gated, h.fetched, h.barred, fun q hq d hd => ?_, fun d hd => ?_, h.tmo,
    (Nat.sub_le _ _).trans h.chn, h.attributed⟩
  · rcases (hholds d q).mp hd with ⟨-, rfl⟩ | hd
    · exact hc
    · exact h.holds q hq hd
  · obtain ⟨q, hq, hdq⟩ := h.supply d hd
    exact ⟨q, hq, (hholds d q).mpr (.inr hdq)⟩

omit [DecidableEq P] in
theorem Inv.resetExcluded (h : Inv K s) {c : C} (hs : ResetExcluded K c s s') : Inv K s' := by
  obtain ⟨-, -, -, -, -, -, rfl⟩ := hs
  have hfailed : ∀ d q, q ∈ except s.failed c (fun _ => ∅) d → q ∈ s.failed d :=
    fun d q hq => (mem_except_empty _ _ _ _ |>.mp hq).2
  exact ⟨h.got, h.hist, h.arrived, h.claimed,
    fun d q hq => ⟨(h.actionable d q hq).1, fun hf => (h.actionable d q hq).2 (hfailed d q hf)⟩,
    h.gated, h.fetched, fun d q hq => h.barred d q (hfailed d q hq), h.holds, h.supply, h.tmo,
    h.chn, fun hz d q hq => h.attributed hz d (hfailed d q hq)⟩

omit [DecidableEq C] [DecidableEq P] in
theorem Inv.newChunk (h : Inv K s) {c : C} (hc : c ∈ K.Chunks) (hs : NewChunk K c s s') :
    Inv K s' := by
  obtain ⟨-, -, rfl⟩ := hs
  exact ⟨h.got.trans Set.subset_union_left, h.hist.trans Set.subset_union_left,
    Set.union_subset h.arrived (Set.singleton_subset_iff.mpr hc),
    fun d q hq => ⟨.inl (h.claimed d q hq).1, (h.claimed d q hq).2⟩, h.actionable, h.gated,
    h.fetched, h.barred, h.holds, h.supply, h.tmo, h.chn, h.attributed⟩

theorem Inv.action (h : Inv K s) {l : Label C P} (hs : Action K l s s') : Inv K s' := by
  cases l with
  | want c p => exact h.want hs.2.1 hs.2.2
  | deliver c p => exact h.deliver hs.2.2
  | byzStall c p =>
    obtain ⟨hc, hp, hbyz, -, -, rfl⟩ := hs
    exact h.release hc hp fun _ => hbyz
  | spuriousTimeout c p => exact h.spuriousTimeout hs.1 hs.2.1 hs.2.2
  | lose c p => exact h.lose hs.2.2
  | gain c p => exact h.gain hs.1 hs.2.2
  | resetExcluded c => exact h.resetExcluded hs.2
  | newChunk c => exact h.newChunk hs.1 hs.2

omit [DecidableEq C] [DecidableEq P] in
theorem deduplicated_init : Deduplicated (Init K) where
  conflict h := h
  single _ _ h := h.elim
  unstored _ _ h := h.elim
  floor := by simp [DeliveryFloor, Init]

omit [DecidableEq C] [DecidableEq P] in
/-- Giving claims up keeps what deduplication says. -/
theorem Deduplicated.shrink (h : Deduplicated s) (hwant : ∀ c, s'.want c ⊆ s.want c)
    (hgot : s'.got = s.got) (hconflict : s'.conflict = s.conflict) (hn : s'.ndeliv = s.ndeliv) :
    Deduplicated s' where
  conflict hc := h.conflict (hconflict ▸ hc)
  single c := (h.single c).anti (hwant c)
  unstored c p hp := hgot ▸ h.unstored c p (hwant c hp)
  floor := by
    unfold DeliveryFloor
    rw [hgot, hn]
    exact h.floor

omit [DecidableEq P] in
theorem Deduplicated.want (h : Deduplicated s) (hd : K.Dedup) {c : C} {p : P}
    (hs : Want K c p s s') : Deduplicated s' := by
  obtain ⟨hcl, rfl⟩ := hs
  have hfree : s.want c = ∅ := hcl.dedup hd
  have hwant : ∀ d q, q ∈ except s.want c (· ∪ {p}) d → c = d ∧ p = q ∨ c ≠ d ∧ q ∈ s.want d := by
    intro d q hq
    rcases mem_except_union _ _ _ _ _ |>.mp hq with he | hq
    · exact .inl he
    · refine .inr ⟨fun he => ?_, hq⟩
      subst he
      exact Set.notMem_empty q (hfree ▸ hq)
  refine ⟨h.conflict, fun d q hq r hr => ?_, fun d q hq => ?_, h.floor⟩
  · rcases hwant d q hq with ⟨he, rfl⟩ | ⟨hne, hq⟩
    · exact (hwant d r hr).elim And.right fun hr => absurd he hr.1
    · exact (hwant d r hr).elim (fun hr => absurd hr.1 hne) fun hr => h.single d hq hr.2
  · rcases hwant d q hq with ⟨rfl, -⟩ | ⟨-, hq⟩
    · exact hcl.missing
    · exact h.unstored d q hq

omit [DecidableEq P] in
theorem Deduplicated.deliver (h : Deduplicated s) {c : C} {p : P} (hs : Deliver K c p s s') :
    Deduplicated s' := by
  obtain ⟨-, hw, rfl⟩ := hs
  have hnew : c ∉ s.got := h.unstored c p hw
  have hwant : ∀ d q, q ∈ except s.want c (· \ {p}) d → ¬ (c = d ∧ p = q) ∧ q ∈ s.want d :=
    fun d q hq => mem_except_diff _ _ _ _ _ |>.mp hq
  refine ⟨fun hc => hc.elim h.conflict hnew,
    fun d => (h.single d).anti fun q hq => (hwant d q hq).2, fun d q hq hg => ?_, ?_⟩
  · obtain ⟨hne, hold⟩ := hwant d q hq
    rcases hg with hg | rfl
    · exact h.unstored d q hold hg
    · exact hne ⟨rfl, h.single d hw hold⟩
  · have hfloor : (s.ndeliv : ℕ∞) = s.got.encard := h.floor
    simp only [DeliveryFloor, Set.union_singleton, Set.encard_insert_of_notMem hnew, ← hfloor]
    exact Nat.cast_succ _

theorem Deduplicated.action (h : Deduplicated s) (hd : K.Dedup) {l : Label C P}
    (hs : Action K l s s') : Deduplicated s' := by
  cases l with
  | want c p => exact h.want hd hs.2.2
  | deliver c p => exact h.deliver hs.2.2
  | byzStall c p =>
    obtain ⟨-, -, -, -, -, rfl⟩ := hs
    exact h.shrink (want_release_subset (K := K) c p) rfl rfl rfl
  | spuriousTimeout c p =>
    obtain ⟨-, -, -, -, -, -, rfl⟩ := hs
    exact h.shrink (want_release_subset (K := K) c p) rfl rfl rfl
  | lose c p =>
    obtain ⟨-, -, -, -, -, -, rfl⟩ := hs
    exact h.shrink (fun d q hq => (mem_except_diff _ _ _ _ _ |>.mp hq).2) rfl rfl rfl
  | gain c p =>
    obtain ⟨-, -, -, -, -, rfl⟩ := hs
    exact h.shrink (fun _ => subset_rfl) rfl rfl rfl
  | resetExcluded c =>
    obtain ⟨-, -, -, -, -, -, -, rfl⟩ := hs
    exact h.shrink (fun _ => subset_rfl) rfl rfl rfl
  | newChunk c =>
    obtain ⟨-, -, -, rfl⟩ := hs
    exact h.shrink (fun _ => subset_rfl) rfl rfl rfl

theorem Inv.next (h : Inv K s) (hs : Next K s s') : Inv K s' :=
  hs.elim fun _ hl => h.action hl

theorem Reaches.inv (hK : K.Assumed) (h : Reaches K s) : Inv K s :=
  invariant_of_reachable (fun _ _ hi hs => hi.next hs) (inv_init hK) h

theorem Reaches.deduplicated (hd : K.Dedup) (h : Reaches K s) : Deduplicated s :=
  invariant_of_reachable (fun _ _ hi hs => hs.elim fun _ hl => hi.action hd hl) deduplicated_init h

omit [DecidableEq C] [DecidableEq P] in
theorem Inv.typeOK (h : Inv K s) : TypeOK K s where
  got := h.got.trans h.arrived
  want c _ p hp := (h.claimed c p hp).2
  failed c _ p hp := (h.barred c p hp).2
  arrived := h.arrived
  holds := h.holds
  tmo := h.tmo
  chn := h.chn

/-- No step takes a stored chunk away. -/
theorem got_subset_next (hs : Next K s s') : s.got ⊆ s'.got := by
  obtain ⟨l, hl⟩ := hs
  cases l with
  | want c p => exact hl.2.2.2 ▸ subset_rfl
  | deliver c p => exact hl.2.2.2.2 ▸ Set.subset_union_left
  | byzStall c p => exact hl.2.2.2.2.2 ▸ subset_rfl
  | spuriousTimeout c p => exact hl.2.2.2.2.2.2 ▸ subset_rfl
  | lose c p => exact hl.2.2.2.2.2.2 ▸ subset_rfl
  | gain c p => exact hl.2.2.2.2.2 ▸ subset_rfl
  | resetExcluded c => exact hl.2.2.2.2.2.2.2 ▸ subset_rfl
  | newChunk c => exact hl.2.2.2 ▸ subset_rfl

/-! ## Every behaviour comes to rest -/

section Rank

omit [DecidableEq C] [DecidableEq P]

noncomputable def pairs (hK : K.Assumed) : Finset (C × P) :=
  hK.chunks.toFinset ×ˢ hK.peers.toFinset

/-- What first deliveries, misfires, resets, churn and arrivals use up. -/
noncomputable def budget (hK : K.Assumed) (s : State C P) : ℕ :=
  2 * s.tmo + count (pairs hK) (fun x => x.2 ∈ s.failed x.1 ∧ x.2 ∈ K.Honest) + s.chn
    + count hK.chunks.toFinset (· ∉ s.arrived) + count hK.chunks.toFinset (· ∉ s.got)

/-- What a byzantine stall uses up. -/
noncomputable def unbarred (hK : K.Assumed) (s : State C P) : ℕ :=
  count (pairs hK) fun x => x.2 ∉ s.failed x.1

/-- What a claim uses up, and the delivery of what is stored already. -/
noncomputable def idle (hK : K.Assumed) (s : State C P) : ℕ :=
  2 * count (pairs hK) (fun x => x.2 ∉ s.want x.1 ∧ x.1 ∉ s.got)
    + count (pairs hK) fun x => x.2 ∈ s.want x.1

noncomputable def rank (hK : K.Assumed) (s : State C P) : ℕ ×ₗ ℕ ×ₗ ℕ :=
  toLex (budget hK s, toLex (unbarred hK s, idle hK s))

theorem mem_pairs (hK : K.Assumed) {c : C} {p : P} (hc : c ∈ K.Chunks) (hp : p ∈ K.Peers) :
    (c, p) ∈ pairs hK :=
  Finset.mem_product.mpr ⟨hK.chunks.mem_toFinset.mpr hc, hK.peers.mem_toFinset.mpr hp⟩

variable {hK : K.Assumed}

theorem rank_lt_of_budget (h : budget hK s' < budget hK s) : rank hK s' < rank hK s :=
  Prod.Lex.toLex_lt_toLex.mpr (.inl h)

theorem rank_lt_of_unbarred (hb : budget hK s' = budget hK s)
    (h : unbarred hK s' < unbarred hK s) : rank hK s' < rank hK s :=
  Prod.Lex.toLex_lt_toLex.mpr (.inr ⟨hb, Prod.Lex.toLex_lt_toLex.mpr (.inl h)⟩)

theorem rank_lt_of_idle (hb : budget hK s' = budget hK s) (hu : unbarred hK s' = unbarred hK s)
    (h : idle hK s' < idle hK s) : rank hK s' < rank hK s :=
  Prod.Lex.toLex_lt_toLex.mpr (.inr ⟨hb, Prod.Lex.toLex_lt_toLex.mpr (.inr ⟨hu, h⟩)⟩)

end Rank

section Lowers

variable {c : C} {p : P}

omit [DecidableEq P] in
/-- A claim uses up its pair. -/
theorem Want.rank_lt (hK : K.Assumed) (hc : c ∈ K.Chunks) (hp : p ∈ K.Peers)
    (hs : Want K c p s s') : rank hK s' < rank hK s := by
  obtain ⟨hcl, rfl⟩ := hs
  have hwant : ∀ x : C × P, x.2 ∈ except s.want c (· ∪ {p}) x.1
      ↔ c = x.1 ∧ p = x.2 ∨ x.2 ∈ s.want x.1 := fun x => mem_except_union _ _ _ _ _
  have hidle : count (pairs hK)
        (fun x => x.2 ∉ except s.want c (· ∪ {p}) x.1 ∧ x.1 ∉ s.got)
      < count (pairs hK) (fun x => x.2 ∉ s.want x.1 ∧ x.1 ∉ s.got) :=
    count_lt (c, p) (mem_pairs hK hc hp) ⟨hcl.unclaimed, hcl.missing⟩
      (fun hx => hx.1 ((hwant (c, p)).mpr (.inl ⟨rfl, rfl⟩)))
      fun x _ hx => ⟨fun hq => hx.1 ((hwant x).mpr (.inr hq)), hx.2⟩
  have hclaims : count (pairs hK) (fun x => x.2 ∈ except s.want c (· ∪ {p}) x.1)
      ≤ count (pairs hK) (fun x => x.2 ∈ s.want x.1) + 1 :=
    count_le_succ (c, p) fun x _ hx => ((hwant x).mp hx).elim
      (fun hx => .inr (Prod.ext hx.1.symm hx.2.symm)) .inl
  refine rank_lt_of_idle rfl rfl ?_
  simp only [idle]
  omega

omit [DecidableEq P] in
/-- A delivery uses up the chunk, or the claim if the chunk is stored already. -/
theorem Deliver.rank_lt (hK : K.Assumed) (hc : c ∈ K.Chunks) (hp : p ∈ K.Peers)
    (hs : Deliver K c p s s') : rank hK s' < rank hK s := by
  obtain ⟨-, hw, rfl⟩ := hs
  have hwant : ∀ x : C × P, x.2 ∈ except s.want c (· \ {p}) x.1
      ↔ ¬ (c = x.1 ∧ p = x.2) ∧ x.2 ∈ s.want x.1 := fun x => mem_except_diff _ _ _ _ _
  by_cases hold : c ∈ s.got
  · -- a second delivery uses up the claim it answers
    have hgot : s.got ∪ {c} = s.got := by rw [Set.union_singleton, Set.insert_eq_of_mem hold]
    have hidle : count (pairs hK)
          (fun x => x.2 ∉ except s.want c (· \ {p}) x.1 ∧ x.1 ∉ s.got)
        ≤ count (pairs hK) (fun x => x.2 ∉ s.want x.1 ∧ x.1 ∉ s.got) :=
      count_le fun x _ hx => ⟨fun hq => hx.1 ((hwant x).mpr ⟨fun hcp => hx.2 (hcp.1 ▸ hold), hq⟩),
        hx.2⟩
    have hclaims : count (pairs hK) (fun x => x.2 ∈ except s.want c (· \ {p}) x.1)
        < count (pairs hK) (fun x => x.2 ∈ s.want x.1) :=
      count_lt (c, p) (mem_pairs hK hc hp) hw (fun hx => ((hwant (c, p)).mp hx).1 ⟨rfl, rfl⟩)
        fun x _ hx => ((hwant x).mp hx).2
    refine rank_lt_of_idle (by simp only [budget, hgot]) rfl ?_
    simp only [idle, hgot]
    omega
  · have hgot : count hK.chunks.toFinset (· ∉ s.got ∪ {c}) < count hK.chunks.toFinset (· ∉ s.got) :=
      count_lt c (hK.chunks.mem_toFinset.mpr hc) hold (fun hn => hn (.inr rfl))
        fun d _ hd hg => hd (.inl hg)
    apply rank_lt_of_budget
    simp only [budget]
    omega

omit [DecidableEq P] in
/-- A byzantine stall uses up a peer to bar. -/
theorem ByzStall.rank_lt (hK : K.Assumed) (he : K.Exclude) (h : Inv K s) (hc : c ∈ K.Chunks)
    (hp : p ∈ K.Peers) (hs : ByzStall K c p s s') : rank hK s' < rank hK s := by
  obtain ⟨hbyz, hw, -, rfl⟩ := hs
  have hbar : p ∉ s.failed c := (h.actionable c p hw).2
  have hbars : count (pairs hK)
        (fun x => x.2 ∈ (release K c p s).failed x.1 ∧ x.2 ∈ K.Honest)
      = count (pairs hK) (fun x => x.2 ∈ s.failed x.1 ∧ x.2 ∈ K.Honest) :=
    count_congr fun x _ => and_congr_left fun hx => by
      rw [mem_failed_release, or_iff_right]
      exact fun hcp => hx.2 (hcp.2.2 ▸ hbyz)
  have hlt : unbarred hK (release K c p s) < unbarred hK s :=
    count_lt (c, p) (mem_pairs hK hc hp) hbar
      (fun hx => hx (mem_failed_release.mpr (.inl ⟨he, rfl, rfl⟩)))
      fun x _ hx hq => hx (mem_failed_release.mpr (.inr hq))
  refine rank_lt_of_unbarred ?_ hlt
  simp only [budget, hbars]
  rfl

omit [DecidableEq P] in
/-- A misfire costs twice what the bar it makes is worth. -/
theorem SpuriousTimeout.rank_lt (hK : K.Assumed) (hs : SpuriousTimeout K c p s s') :
    rank hK s' < rank hK s := by
  obtain ⟨htmo, -, -, -, rfl⟩ := hs
  have hbars : count (pairs hK)
        (fun x => x.2 ∈ (release K c p s).failed x.1 ∧ x.2 ∈ K.Honest)
      ≤ count (pairs hK) (fun x => x.2 ∈ s.failed x.1 ∧ x.2 ∈ K.Honest) + 1 := by
    refine count_le_succ (c, p) fun x _ hx => ?_
    rcases mem_failed_release.mp hx.1 with ⟨-, hc, hp⟩ | hq
    · exact .inr (Prod.ext hc.symm hp.symm)
    · exact .inl ⟨hq, hx.2⟩
  have harr : (release K c p s).arrived = s.arrived := rfl
  have hgot : (release K c p s).got = s.got := rfl
  have hchn : (release K c p s).chn = s.chn := rfl
  apply rank_lt_of_budget
  simp only [budget, harr, hgot, hchn]
  omega

omit [DecidableEq P] in
/-- A reset uses up an honest bar: among the holders that are all barred is an honest one. -/
theorem ResetExcluded.rank_lt (hK : K.Assumed) (h : Inv K s) (hc : c ∈ K.Chunks)
    (hs : ResetExcluded K c s s') : rank hK s' < rank hK s := by
  obtain ⟨-, -, -, -, -, hall, rfl⟩ := hs
  obtain ⟨p, hp, hheld⟩ := h.supply c hc
  have hbars : count (pairs hK)
        (fun x => x.2 ∈ except s.failed c (fun _ => ∅) x.1 ∧ x.2 ∈ K.Honest)
      < count (pairs hK) (fun x => x.2 ∈ s.failed x.1 ∧ x.2 ∈ K.Honest) :=
    count_lt (c, p) (mem_pairs hK hc hp.1) ⟨hall p hp.1 hheld, hp⟩
      (fun hx => (mem_except_empty _ _ _ _ |>.mp hx.1).1 rfl)
      fun x _ hx => ⟨(mem_except_empty _ _ _ _ |>.mp hx.1).2, hx.2⟩
  apply rank_lt_of_budget
  simp only [budget]
  omega

omit [DecidableEq C] [DecidableEq P] in
theorem NewChunk.rank_lt (hK : K.Assumed) (hc : c ∈ K.Chunks) (hs : NewChunk K c s s') :
    rank hK s' < rank hK s := by
  obtain ⟨-, hnew, rfl⟩ := hs
  have harr : count hK.chunks.toFinset (· ∉ s.arrived ∪ {c})
      < count hK.chunks.toFinset (· ∉ s.arrived) :=
    count_lt c (hK.chunks.mem_toFinset.mpr hc) hnew (fun hn => hn (.inr rfl))
      fun d _ hd ha => hd (.inl ha)
  apply rank_lt_of_budget
  simp only [budget]
  omega

end Lowers

/-- Where stalls bar, every step lowers the rank. -/
theorem rank_action (hK : K.Assumed) (he : K.Exclude) (h : Inv K s) {l : Label C P}
    (hs : Action K l s s') : rank hK s' < rank hK s := by
  cases l with
  | want c p => exact hs.2.2.rank_lt hK hs.1 hs.2.1
  | deliver c p => exact hs.2.2.rank_lt hK hs.1 hs.2.1
  | byzStall c p => exact hs.2.2.rank_lt hK he h hs.1 hs.2.1
  | spuriousTimeout c p => exact hs.2.2.rank_lt hK
  | lose c p =>
    obtain ⟨-, -, hchn, -, -, -, rfl⟩ := hs
    apply rank_lt_of_budget
    simp only [budget]
    omega
  | gain c p =>
    obtain ⟨-, -, hchn, -, -, rfl⟩ := hs
    apply rank_lt_of_budget
    simp only [budget]
    omega
  | resetExcluded c => exact hs.2.rank_lt hK h hs.1
  | newChunk c => exact hs.2.rank_lt hK hs.1

theorem rank_next (hK : K.Assumed) (he : K.Exclude) (h : Inv K s) (hs : Next K s s') :
    rank hK s' < rank hK s := hs.elim fun _ hl => rank_action hK he h hl

/-- There is a fair behaviour. -/
theorem exists_spec (hK : K.Assumed) (he : K.Exclude) : ∃ run, Spec K run :=
  exists_fairRun_of_rank (rank hK) (fun _ _ hi hs => Inv.next hi hs)
    (fun _ _ hi hs => rank_next hK he hi hs) (inv_init hK)

theorem Spec.inv {run : ℕ → State C P} (h : Spec K run) (hK : K.Assumed) (n : ℕ) : Inv K (run n) :=
  Reaches.inv hK (FairRun.reaches h n)

/-- Where stalls bar, a fair behaviour comes to rest, and owes no step there. -/
theorem Spec.rests {run : ℕ → State C P} (h : Spec K run) (hK : K.Assumed) (he : K.Exclude) :
    ∃ n, (∀ m, n ≤ m → run m = run n)
      ∧ ∀ l : Label C P, l.Owed → ∀ s, ¬ Action K l (run n) s :=
  FairRun.rests h (acc_of_rank (rank hK) (fun _ _ hi hs => Inv.next hi hs)
    (fun _ _ hi hs => rank_next hK he hi hs) (inv_init hK))

/-! ## What is left at rest -/

/-- With failover on, no claim. -/
theorem Inv.unclaimed (h : Inv K s) (hf : K.Failover)
    (hrest : ∀ l : Label C P, l.Owed → ∀ s', ¬ Action K l s s') (c : C) : s.want c = ∅ := by
  refine Set.eq_empty_of_forall_notMem fun p hp => ?_
  obtain ⟨harr, hpeer⟩ := h.claimed c p hp
  by_cases hbyz : p ∈ K.Byzantine
  · exact hrest (.byzStall c p) trivial _ ⟨h.arrived harr, hpeer, hbyz, hp, hf, rfl⟩
  · exact hrest (.deliver c p) trivial _ ⟨h.arrived harr, hpeer, ⟨hpeer, hbyz⟩, hp, rfl⟩

/-- With the repairs on, nothing is missing: the deepest chunk missing could be claimed from a
holder, or the bars on its holders be lifted. -/
theorem Inv.complete (h : Inv K s) (hK : K.Assumed) (hf : K.Failover) (hr : K.ResetOnExhaust)
    (hsingle : ¬ K.SingleSource) (hlive : K.EnableLive ∨ K.LiveChunks = ∅)
    (hrest : ∀ l : Label C P, l.Owed → ∀ s', ¬ Action K l s s') : s.got = K.Chunks := by
  refine (h.got.trans h.arrived).antisymm fun c hc => ?_
  by_contra hmiss
  have hfree := h.unclaimed hf hrest
  obtain ⟨d, ⟨hd, hmiss⟩, hmax⟩ := Set.exists_max_image (K.Chunks \ s.got) K.Prio
    (hK.chunks.subset Set.sdiff_subset) ⟨c, hc, hmiss⟩
  have harr : d ∈ s.arrived := by
    by_contra hnew
    by_cases hl : d ∈ K.LiveChunks
    · exact hrest (.newChunk d) trivial _ ⟨hd, hl, hnew, rfl⟩
    · exact hnew (h.hist ⟨hd, hl⟩)
  have hprio : PrioOK K s d := .inr fun e he hlt => by
    by_contra hun
    exact absurd (hmax e ⟨h.arrived he, fun hg => hun (.inl hg)⟩) (Nat.not_le.mpr hlt)
  have hbarred : ∀ p ∈ K.Peers, d ∈ s.holds p → p ∈ s.failed d := by
    intro p hp hheld
    by_contra hbar
    exact hrest (.want d p) trivial _ ⟨hd, hp,
      ⟨harr, hheld, hmiss, hfree d ▸ Set.notMem_empty p, hbar, fun _ => hfree d,
        fun hss => absurd hss hsingle,
        fun hl => hlive.resolve_right (Set.nonempty_iff_ne_empty.mp ⟨d, hl⟩), hprio⟩, rfl⟩
  obtain ⟨p, hp, hheld⟩ := h.supply d hd
  have hsome : s.failed d ≠ ∅ := Set.nonempty_iff_ne_empty.mp ⟨p, hbarred p hp.1 hheld⟩
  exact hrest (.resetExcluded d) trivial _ ⟨hd, hr, harr, hmiss, hfree d, hsome, hbarred, rfl⟩

/-! ## The properties -/

theorem Spec.monotone {run : ℕ → State C P} (h : Spec K run) : Monotone run := fun n =>
  (h.behaviour n).elim (fun heq => (congrArg State.got heq).ge) got_subset_next

/-- With failover on, no claim leaks. -/
theorem Spec.quiesces {run : ℕ → State C P} (h : Spec K run) (hK : K.Assumed) (hf : K.Failover)
    (he : K.Exclude) : Quiescence K run := by
  obtain ⟨n, hstill, hrest⟩ := h.rests hK he
  exact ⟨n, fun m hm c _ => hstill m hm ▸ (h.inv hK n).unclaimed hf hrest c⟩

/-- With the repairs on and live chunks fetched, every chunk is. -/
theorem Spec.completes {run : ℕ → State C P} (h : Spec K run) (hK : K.Assumed) (hf : K.Failover)
    (he : K.Exclude) (hr : K.ResetOnExhaust) (hsingle : ¬ K.SingleSource)
    (hlive : K.EnableLive ∨ K.LiveChunks = ∅) : Completeness K run := by
  obtain ⟨n, -, hrest⟩ := h.rests hK he
  exact ⟨n, (h.inv hK n).complete hK hf hr hsingle hlive hrest⟩

/-- Where live chunks are not fetched on arrival none ever is. -/
theorem Spec.stale {run : ℕ → State C P} (h : Spec K run) (hK : K.Assumed) (hfresh : Freshness K run) :
    K.EnableLive ∨ K.LiveChunks = ∅ := by
  obtain ⟨n, hn⟩ := hfresh
  refine or_iff_not_imp_right.mpr fun hne => ?_
  obtain ⟨c, hc⟩ := Set.nonempty_iff_ne_empty.mpr hne
  exact (h.inv hK n).fetched c (hn hc) hc

/-- The design model keeps its promises for every instance: the invariants whatever the knobs; a
store that only grows; no claim left with failover and exclusion on; and with all the repairs on,
every chunk fetched exactly where live chunks are fetched on arrival or there are none. -/
theorem design_holds (K : Constants C P) (hK : K.Assumed) :
    (∀ s, Reaches K s → TypeOK K s ∧ SupplyInv K s ∧ DedupInv K s ∧ ClaimsLive K s
        ∧ NoFalseExclusion K s ∧ (K.Dedup → ConflictFree s ∧ DeliveryFloor s))
      ∧ (∀ run, Spec K run → Monotone run)
      ∧ (K.Failover → K.Exclude → (∃ run, Spec K run) ∧ ∀ run, Spec K run → Quiescence K run)
      ∧ (K.Failover → K.Exclude → K.ResetOnExhaust → ¬ K.SingleSource →
        ((∀ run, Spec K run → Completeness K run) ↔ K.EnableLive ∨ K.LiveChunks = ∅)
        ∧ ((∀ run, Spec K run → Freshness K run) ↔ K.EnableLive ∨ K.LiveChunks = ∅)) := by
  refine ⟨fun s hs => ?_, fun run h => h.monotone,
    fun hf he => ⟨exists_spec hK he, fun run h => h.quiesces hK hf he⟩,
    fun hf he hr hsingle => ?_⟩
  · have hinv := hs.inv hK
    refine ⟨hinv.typeOK, hinv.supply, fun hd c _ => ?_, fun c _ => hinv.actionable c,
      fun hz c _ => hinv.attributed hz c, fun hd => ?_⟩
    · exact Set.encard_le_one_iff_subsingleton.mpr ((hs.deduplicated hd).single c)
    · exact ⟨(hs.deduplicated hd).conflict, (hs.deduplicated hd).floor⟩
  · obtain ⟨run, hrun⟩ := exists_spec hK he
    have hfresh : ∀ r, Completeness K r → Freshness K r := fun r ⟨n, hn⟩ => ⟨n, hn ▸ hK.live⟩
    refine ⟨⟨fun h => hrun.stale hK (hfresh run (h run hrun)),
      fun hlive r h => h.completes hK hf he hr hsingle hlive⟩,
      ⟨fun h => hrun.stale hK (h run hrun),
        fun hlive r h => hfresh r (h.completes hK hf he hr hsingle hlive)⟩⟩

/-- The instance of `MC_storm.tla`: an omitting peer that stalls its claims, a live chunk that is the
deepest, a chunk that a single honest peer holds, a misfire and a churn event. -/
def mcStorm : Constants ℕ ℕ where
  Chunks := {1, 2, 3, 4}
  Peers := {1, 2, 3, 4}
  Holds p := {c | (p, c) ∈ [(1, 1), (1, 2), (1, 4), (2, 2), (2, 3), (2, 4), (3, 3), (3, 4), (4, 1),
    (4, 2), (4, 3), (4, 4)]}
  Byzantine := {4}
  Dedup := True
  Failover := True
  Exclude := True
  SingleSource := False
  Assign c := c
  ResetOnExhaust := True
  Priority := True
  Prio c := c
  EnableLive := True
  LiveChunks := {4}
  TimeoutBudget := 1
  ChurnBudget := 1

/-- Everything at once. -/
theorem design_holds_storm : (∃ run, Spec mcStorm run)
    ∧ ∀ run, Spec mcStorm run → Completeness mcStorm run ∧ Quiescence mcStorm run := by
  have hassumed : mcStorm.Assumed := {
    chunks := Set.toFinite ({1, 2, 3, 4} : Set ℕ)
    peers := Set.toFinite ({1, 2, 3, 4} : Set ℕ)
    holds := fun p _ c hc => by
      simp only [mcStorm, Set.mem_ofPred_eq, List.mem_cons, Prod.mk.injEq] at hc
      simp only [mcStorm, Set.mem_insert_iff, Set.mem_singleton_iff]
      grind
    supply := fun c hc => by
      simp only [mcStorm, Set.mem_insert_iff, Set.mem_singleton_iff] at hc
      rcases hc with rfl | rfl | rfl | rfl
      · exact ⟨1, by simp [mcStorm, Constants.Honest], by simp [mcStorm]⟩
      · exact ⟨1, by simp [mcStorm, Constants.Honest], by simp [mcStorm]⟩
      · exact ⟨2, by simp [mcStorm, Constants.Honest], by simp [mcStorm]⟩
      · exact ⟨1, by simp [mcStorm, Constants.Honest], by simp [mcStorm]⟩
    live := by simp [mcStorm] }
  obtain ⟨-, -, hquiet, hcomplete⟩ := design_holds mcStorm hassumed
  obtain ⟨hexists, hquiesces⟩ := hquiet trivial trivial
  obtain ⟨hall, -⟩ := hcomplete trivial trivial trivial id
  exact ⟨hexists, fun run h => ⟨hall.mpr (.inl trivial) run h, hquiesces run h⟩⟩

end Melissi.PullSyncerE
