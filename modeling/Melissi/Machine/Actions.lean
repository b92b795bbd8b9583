import Melissi.Machine.PullState

/-!
# What each action of the machine does

The machine's three maps of sets are read as relations: which claims are in flight, who holds what,
who is barred for what. Every guard and every action has one lemma here in these terms, so that no
later proof unfolds one.
-/

namespace Melissi.Machine

open Melissi.Common
open Std (ExtTreeMap ExtTreeSet)

namespace PullState

variable {C : Type} [LinearOrder C]

/-- `p` has a claim on `c` in flight. -/
def Leased (m : PullState C) (c : C) (p : PeerId) : Prop := setContains m.want c p

/-- `p` is observed to hold `c`. -/
def Held (m : PullState C) (c : C) (p : PeerId) : Prop := setContains m.holders c p

/-- `p` is barred for `c`. -/
def Barred (m : PullState C) (c : C) (p : PeerId) : Prop := setContains m.excluded c p

instance decidableLeased (m : PullState C) (c : C) (p : PeerId) : Decidable (m.Leased c p) :=
  inferInstanceAs (Decidable (setContains m.want c p = true))

instance decidableHeld (m : PullState C) (c : C) (p : PeerId) : Decidable (m.Held c p) :=
  inferInstanceAs (Decidable (setContains m.holders c p = true))

instance decidableBarred (m : PullState C) (c : C) (p : PeerId) : Decidable (m.Barred c p) :=
  inferInstanceAs (Decidable (setContains m.excluded c p = true))

/-- The priority key of `c`, as the guard reads it. -/
def prioOf (m : PullState C) (c : C) : UInt8 := m.prio[c]?.getD 0

variable (m : PullState C) (c d : C) (p q : PeerId)

/-! ## The guards -/

theorem eligible_iff : m.eligible d ↔ d ∉ m.got ∧ ∃ p, m.Held d p ∧ ¬ m.Barred d p := by
  have hheld : ∀ p, m.Held d p ↔ ∃ s, m.holders[d]? = some s ∧ p ∈ s := setContains_iff _ _
  simp only [eligible, hheld]
  cases h : m.holders[d]? with
  | none => simp
  | some hs => simp [List.any_eq_true, Barred]

theorem addressed_iff : m.addressed d ↔ d ∈ m.got ∨ d ∈ m.want := by
  simp [addressed]

theorem prioOk_iff : m.prioOk c ↔
    (m.cfg.priority → ∀ d ∈ m.arrived,
      m.prioOf d ≤ m.prioOf c ∨ ¬ m.eligible d ∨ m.addressed d) := by
  cases h : m.cfg.priority <;> simp [prioOk, prioOf, h, List.all_eq_true, or_assoc]

theorem claimable_iff : m.claimable c p ↔
    c ∈ m.arrived ∧ m.Held c p ∧ c ∉ m.got ∧ ¬ m.Leased c p ∧ ¬ m.Barred c p
      ∧ (m.cfg.dedup → c ∉ m.want) ∧ (m.cfg.singleSource → m.assign[c]? = some p)
      ∧ (c ∈ m.live → m.cfg.enableLive) ∧ m.prioOk c := by
  cases hd : m.cfg.dedup <;> cases hs : m.cfg.singleSource <;> cases he : m.cfg.enableLive <;>
    simp [claimable, hd, hs, he, and_assoc, Held, Leased, Barred]

/-- Enumerating the wants finds exactly the claimable pairs. -/
theorem mem_enabledWants : (c, p) ∈ m.enabledWants ↔ m.claimable c p := by
  simp only [enabledWants, List.mem_flatMap, ExtTreeSet.mem_toList]
  constructor
  · rintro ⟨c', -, h⟩
    split at h
    · simp at h
    · split at h
      · simp at h
      · simp only [List.mem_map, List.mem_filter, Prod.mk.injEq] at h
        obtain ⟨p', ⟨-, hcl⟩, rfl, rfl⟩ := h
        exact hcl
  · intro h
    obtain ⟨harr, hheld, hgot, -⟩ := (m.claimable_iff c p).mp h
    obtain ⟨hs, hhs, hp⟩ := (setContains_iff m.holders c p).mp hheld
    exact ⟨c, harr, by simp [hgot, hhs, hp, h]⟩

/-- The priority guard never blocks everything: with nothing in flight, the deepest of the arrived
ids that have a holder left is claimable. -/
theorem exists_claimable (hs : ¬ m.cfg.singleSource) (hl : m.cfg.enableLive)
    (hfree : ∀ c, c ∉ m.want) (hd : d ∈ m.arrived) (he : m.eligible d) :
    ∃ c p, m.claimable c p := by
  obtain ⟨c, hc, hmax⟩ := Finset.exists_max_image
    (m.arrived.toList.toFinset.filter fun d => m.eligible d) m.prioOf ⟨d, by simp [hd, he]⟩
  simp only [Finset.mem_filter, List.mem_toFinset, ExtTreeSet.mem_toList] at hc hmax
  obtain ⟨hgot, p, hp, hbar⟩ := (m.eligible_iff c).mp hc.2
  refine ⟨c, p, (m.claimable_iff c p).mpr ⟨hc.1, hp, hgot, fun h => hfree c ?_, hbar,
    fun _ => hfree c, fun h => absurd h hs, fun _ => hl, (m.prioOk_iff c).mpr fun _ d' hd' => ?_⟩⟩
  · obtain ⟨s, hs, -⟩ := (setContains_iff m.want c p).mp h
    exact ExtTreeMap.isSome_getElem?_iff_mem.mp (by simp [hs])
  · by_cases he' : m.eligible d'
    · exact Or.inl (hmax d' ⟨hd', he'⟩)
    · exact Or.inr (Or.inl he')

theorem canResetExcluded_iff : m.canResetExcluded c ↔
    m.cfg.resetOnExhaust ∧ c ∈ m.arrived ∧ c ∉ m.got ∧ c ∉ m.want
      ∧ (∃ p, m.Barred c p) ∧ ∀ p, m.Held c p → m.Barred c p := by
  simp only [canResetExcluded, Held, Barred, setContains_iff]
  cases he : m.excluded[c]? with
  | none => simp
  | some ex =>
    have hne : (¬ ex.isEmpty) ↔ ∃ p, p ∈ ex := by
      rw [isEmpty_iff_forall_not_mem]
      push Not
      rfl
    cases hh : m.holders[c]? <;> simp [← hne, List.all_eq_true, and_assoc]

/-! ## The actions -/

@[simp] theorem setPrio_frame (depth : UInt8) :
    (m.setPrio c depth).cfg = m.cfg ∧ (m.setPrio c depth).want = m.want
      ∧ (m.setPrio c depth).Leased = m.Leased
      ∧ (m.setPrio c depth).holders = m.holders
      ∧ (m.setPrio c depth).Held = m.Held ∧ (m.setPrio c depth).excluded = m.excluded
      ∧ (m.setPrio c depth).Barred = m.Barred
      ∧ (m.setPrio c depth).arrived = m.arrived ∧ (m.setPrio c depth).live = m.live
      ∧ (m.setPrio c depth).rejected = m.rejected ∧ (m.setPrio c depth).got = m.got
      ∧ (m.setPrio c depth).conflict = m.conflict ∧ (m.setPrio c depth).ndeliv = m.ndeliv
      ∧ (m.setPrio c depth).npre = m.npre := by
  and_intros <;> rfl

@[simp] theorem setAssign_frame :
    (m.setAssign c p).cfg = m.cfg ∧ (m.setAssign c p).want = m.want
      ∧ (m.setAssign c p).Leased = m.Leased
      ∧ (m.setAssign c p).holders = m.holders
      ∧ (m.setAssign c p).Held = m.Held ∧ (m.setAssign c p).excluded = m.excluded
      ∧ (m.setAssign c p).Barred = m.Barred
      ∧ (m.setAssign c p).arrived = m.arrived ∧ (m.setAssign c p).live = m.live
      ∧ (m.setAssign c p).rejected = m.rejected ∧ (m.setAssign c p).got = m.got
      ∧ (m.setAssign c p).prio = m.prio
      ∧ (m.setAssign c p).conflict = m.conflict ∧ (m.setAssign c p).ndeliv = m.ndeliv
      ∧ (m.setAssign c p).npre = m.npre := by
  and_intros <;> rfl

@[simp] theorem observeHolder_frame :
    (m.observeHolder c p).1.cfg = m.cfg ∧ (m.observeHolder c p).1.want = m.want
      ∧ (m.observeHolder c p).1.Leased = m.Leased
      ∧ (m.observeHolder c p).1.excluded = m.excluded
      ∧ (m.observeHolder c p).1.Barred = m.Barred
      ∧ (m.observeHolder c p).1.arrived = m.arrived ∧ (m.observeHolder c p).1.live = m.live
      ∧ (m.observeHolder c p).1.rejected = m.rejected ∧ (m.observeHolder c p).1.got = m.got
      ∧ (m.observeHolder c p).1.prio = m.prio
      ∧ (m.observeHolder c p).1.conflict = m.conflict
      ∧ (m.observeHolder c p).1.ndeliv = m.ndeliv ∧ (m.observeHolder c p).1.npre = m.npre := by
  and_intros <;> rfl

@[simp] theorem held_observeHolder :
    (m.observeHolder c p).1.Held d q ↔ c = d ∧ p = q ∨ m.Held d q := by
  simp [observeHolder, Held]

@[simp] theorem loseHolder_frame :
    (m.loseHolder c p).1.cfg = m.cfg ∧ (m.loseHolder c p).1.excluded = m.excluded
      ∧ (m.loseHolder c p).1.Barred = m.Barred
      ∧ (m.loseHolder c p).1.arrived = m.arrived ∧ (m.loseHolder c p).1.live = m.live
      ∧ (m.loseHolder c p).1.rejected = m.rejected ∧ (m.loseHolder c p).1.got = m.got
      ∧ (m.loseHolder c p).1.prio = m.prio ∧ (m.loseHolder c p).1.conflict = m.conflict
      ∧ (m.loseHolder c p).1.ndeliv = m.ndeliv ∧ (m.loseHolder c p).1.npre = m.npre := by
  and_intros <;> rfl

@[simp] theorem held_loseHolder :
    (m.loseHolder c p).1.Held d q ↔ ¬ (c = d ∧ p = q) ∧ m.Held d q := by
  simp [loseHolder, Held]

@[simp] theorem leased_loseHolder :
    (m.loseHolder c p).1.Leased d q ↔ ¬ (c = d ∧ p = q) ∧ m.Leased d q := by
  simp [loseHolder, Leased]

@[simp] theorem preload_frame :
    (m.preload c).1.cfg = m.cfg ∧ (m.preload c).1.want = m.want
      ∧ (m.preload c).1.Leased = m.Leased
      ∧ (m.preload c).1.holders = m.holders
      ∧ (m.preload c).1.Held = m.Held ∧ (m.preload c).1.excluded = m.excluded
      ∧ (m.preload c).1.Barred = m.Barred
      ∧ (m.preload c).1.arrived = m.arrived ∧ (m.preload c).1.live = m.live
      ∧ (m.preload c).1.rejected = m.rejected ∧ (m.preload c).1.prio = m.prio
      ∧ (m.preload c).1.conflict = m.conflict ∧ (m.preload c).1.ndeliv = m.ndeliv := by
  simp only [preload]
  split <;> (and_intros <;> rfl)

@[simp] theorem mem_got_preload : d ∈ (m.preload c).1.got ↔ c = d ∨ d ∈ m.got := by
  simp only [preload]
  split
  · grind
  · simp

@[simp] theorem arriveHist_frame :
    (m.arriveHist c).1.cfg = m.cfg ∧ (m.arriveHist c).1.want = m.want
      ∧ (m.arriveHist c).1.Leased = m.Leased
      ∧ (m.arriveHist c).1.holders = m.holders
      ∧ (m.arriveHist c).1.Held = m.Held ∧ (m.arriveHist c).1.excluded = m.excluded
      ∧ (m.arriveHist c).1.Barred = m.Barred
      ∧ (m.arriveHist c).1.live = m.live ∧ (m.arriveHist c).1.rejected = m.rejected
      ∧ (m.arriveHist c).1.got = m.got ∧ (m.arriveHist c).1.prio = m.prio
      ∧ (m.arriveHist c).1.conflict = m.conflict ∧ (m.arriveHist c).1.ndeliv = m.ndeliv
      ∧ (m.arriveHist c).1.npre = m.npre := by
  simp only [arriveHist]
  split <;> (and_intros <;> rfl)

@[simp] theorem mem_arrived_arriveHist :
    d ∈ (m.arriveHist c).1.arrived ↔ d ∈ m.arrived ∨ c = d ∧ d ∉ m.got ∧ d ∉ m.rejected := by
  simp only [arriveHist]
  split <;> grind

@[simp] theorem arriveLive_frame :
    (m.arriveLive c).1.cfg = m.cfg ∧ (m.arriveLive c).1.want = m.want
      ∧ (m.arriveLive c).1.Leased = m.Leased
      ∧ (m.arriveLive c).1.holders = m.holders
      ∧ (m.arriveLive c).1.Held = m.Held ∧ (m.arriveLive c).1.excluded = m.excluded
      ∧ (m.arriveLive c).1.Barred = m.Barred
      ∧ (m.arriveLive c).1.rejected = m.rejected
      ∧ (m.arriveLive c).1.got = m.got ∧ (m.arriveLive c).1.prio = m.prio
      ∧ (m.arriveLive c).1.conflict = m.conflict ∧ (m.arriveLive c).1.ndeliv = m.ndeliv
      ∧ (m.arriveLive c).1.npre = m.npre := by
  simp only [arriveLive]
  split <;> (and_intros <;> rfl)

@[simp] theorem mem_arrived_arriveLive :
    d ∈ (m.arriveLive c).1.arrived ↔ d ∈ m.arrived ∨ c = d ∧ d ∉ m.got ∧ d ∉ m.rejected := by
  simp only [arriveLive]
  split <;> grind

theorem mem_live_arriveLive :
    d ∈ (m.arriveLive c).1.live ↔
      d ∈ m.live ∨ c = d ∧ c ∉ m.got ∧ c ∉ m.rejected ∧ c ∉ m.arrived := by
  simp only [arriveLive]
  split <;> grind

@[simp] theorem wantFrom_frame :
    (m.wantFrom c p).1.cfg = m.cfg ∧ (m.wantFrom c p).1.holders = m.holders
      ∧ (m.wantFrom c p).1.Held = m.Held
      ∧ (m.wantFrom c p).1.excluded = m.excluded
      ∧ (m.wantFrom c p).1.Barred = m.Barred ∧ (m.wantFrom c p).1.arrived = m.arrived
      ∧ (m.wantFrom c p).1.live = m.live ∧ (m.wantFrom c p).1.rejected = m.rejected
      ∧ (m.wantFrom c p).1.got = m.got ∧ (m.wantFrom c p).1.prio = m.prio
      ∧ (m.wantFrom c p).1.conflict = m.conflict ∧ (m.wantFrom c p).1.ndeliv = m.ndeliv
      ∧ (m.wantFrom c p).1.npre = m.npre := by
  simp only [wantFrom]
  split <;> (and_intros <;> rfl)

@[simp] theorem leased_wantFrom :
    (m.wantFrom c p).1.Leased d q ↔ m.claimable c p ∧ c = d ∧ p = q ∨ m.Leased d q := by
  simp only [wantFrom, Leased]
  split <;> simp_all

@[simp] theorem deliver_frame :
    (m.deliver c p).1.cfg = m.cfg ∧ (m.deliver c p).1.holders = m.holders
      ∧ (m.deliver c p).1.Held = m.Held
      ∧ (m.deliver c p).1.excluded = m.excluded
      ∧ (m.deliver c p).1.Barred = m.Barred ∧ (m.deliver c p).1.arrived = m.arrived
      ∧ (m.deliver c p).1.live = m.live ∧ (m.deliver c p).1.rejected = m.rejected
      ∧ (m.deliver c p).1.prio = m.prio ∧ (m.deliver c p).1.npre = m.npre := by
  simp only [deliver]
  split <;> (and_intros <;> rfl)

@[simp] theorem deliver_snd : (m.deliver c p).2 ↔ m.Leased c p := by
  simp only [deliver, Leased]
  split <;> simp_all

@[simp] theorem leased_deliver :
    (m.deliver c p).1.Leased d q ↔ ¬ (c = d ∧ p = q) ∧ m.Leased d q := by
  simp only [deliver, Leased]
  split
  · grind
  · simp

@[simp] theorem mem_got_deliver :
    d ∈ (m.deliver c p).1.got ↔ c = d ∧ m.Leased c p ∨ d ∈ m.got := by
  simp only [deliver, Leased]
  split <;> simp_all

@[simp] theorem stall_frame :
    (m.stall c p).1.cfg = m.cfg ∧ (m.stall c p).1.holders = m.holders
      ∧ (m.stall c p).1.Held = m.Held
      ∧ (m.stall c p).1.arrived = m.arrived ∧ (m.stall c p).1.live = m.live
      ∧ (m.stall c p).1.rejected = m.rejected ∧ (m.stall c p).1.got = m.got
      ∧ (m.stall c p).1.prio = m.prio ∧ (m.stall c p).1.conflict = m.conflict
      ∧ (m.stall c p).1.ndeliv = m.ndeliv ∧ (m.stall c p).1.npre = m.npre := by
  simp only [stall]
  split <;> (and_intros <;> rfl)

@[simp] theorem leased_stall :
    (m.stall c p).1.Leased d q ↔ ¬ (m.cfg.failover ∧ c = d ∧ p = q) ∧ m.Leased d q := by
  simp only [stall, Leased]
  split
  · grind
  · simp_all

@[simp] theorem barred_stall :
    (m.stall c p).1.Barred d q ↔
      (m.cfg.failover ∧ m.cfg.exclude ∧ m.Leased c p) ∧ c = d ∧ p = q ∨ m.Barred d q := by
  simp only [stall, Barred, Leased]
  split
  · grind
  · cases m.cfg.exclude <;> simp_all

@[simp] theorem reject_frame :
    (m.reject c).1.cfg = m.cfg ∧ (m.reject c).1.holders = m.holders
      ∧ (m.reject c).1.Held = m.Held
      ∧ (m.reject c).1.excluded = m.excluded
      ∧ (m.reject c).1.Barred = m.Barred ∧ (m.reject c).1.got = m.got
      ∧ (m.reject c).1.prio = m.prio ∧ (m.reject c).1.conflict = m.conflict
      ∧ (m.reject c).1.ndeliv = m.ndeliv ∧ (m.reject c).1.npre = m.npre := by
  simp only [reject]
  split <;> (and_intros <;> rfl)

@[simp] theorem leased_reject :
    (m.reject c).1.Leased d q ↔ ¬ (c = d ∧ c ∉ m.got ∧ c ∉ m.rejected) ∧ m.Leased d q := by
  simp only [reject, Leased]
  split
  · grind
  · simp_all

@[simp] theorem mem_rejected_reject :
    d ∈ (m.reject c).1.rejected ↔ c = d ∧ c ∉ m.got ∨ d ∈ m.rejected := by
  simp only [reject]
  split <;> grind

@[simp] theorem mem_arrived_reject :
    d ∈ (m.reject c).1.arrived ↔ ¬ (c = d ∧ c ∉ m.got ∧ c ∉ m.rejected) ∧ d ∈ m.arrived := by
  simp only [reject]
  split <;> grind

@[simp] theorem resetExcluded_frame :
    (m.resetExcluded c).1.cfg = m.cfg ∧ (m.resetExcluded c).1.want = m.want
      ∧ (m.resetExcluded c).1.Leased = m.Leased
      ∧ (m.resetExcluded c).1.holders = m.holders
      ∧ (m.resetExcluded c).1.Held = m.Held ∧ (m.resetExcluded c).1.arrived = m.arrived
      ∧ (m.resetExcluded c).1.live = m.live ∧ (m.resetExcluded c).1.rejected = m.rejected
      ∧ (m.resetExcluded c).1.got = m.got ∧ (m.resetExcluded c).1.prio = m.prio
      ∧ (m.resetExcluded c).1.conflict = m.conflict ∧ (m.resetExcluded c).1.ndeliv = m.ndeliv
      ∧ (m.resetExcluded c).1.npre = m.npre := by
  simp only [resetExcluded]
  split <;> (and_intros <;> rfl)

@[simp] theorem barred_resetExcluded :
    (m.resetExcluded c).1.Barred d q ↔ ¬ (c = d ∧ m.canResetExcluded c) ∧ m.Barred d q := by
  simp only [resetExcluded, Barred]
  split <;> simp_all

@[simp] theorem forget_frame :
    (m.forget c).1.cfg = m.cfg ∧ (m.forget c).1.want = m.want
      ∧ (m.forget c).1.Leased = m.Leased
      ∧ (m.forget c).1.rejected = m.rejected ∧ (m.forget c).1.got = m.got
      ∧ (m.forget c).1.conflict = m.conflict ∧ (m.forget c).1.ndeliv = m.ndeliv
      ∧ (m.forget c).1.npre = m.npre := by
  simp only [forget]
  split <;> (and_intros <;> rfl)

@[simp] theorem held_forget :
    (m.forget c).1.Held d q ↔ ¬ (c = d ∧ (c ∈ m.got ∨ c ∈ m.rejected)) ∧ m.Held d q := by
  simp only [forget, Held]
  split
  · grind
  · simp_all [or_iff_not_imp_left]

@[simp] theorem barred_forget :
    (m.forget c).1.Barred d q ↔ ¬ (c = d ∧ (c ∈ m.got ∨ c ∈ m.rejected)) ∧ m.Barred d q := by
  simp only [forget, Barred]
  split
  · grind
  · simp_all [or_iff_not_imp_left]

@[simp] theorem mem_arrived_forget :
    d ∈ (m.forget c).1.arrived ↔
      ¬ (c = d ∧ (c ∈ m.got ∨ c ∈ m.rejected)) ∧ d ∈ m.arrived := by
  simp only [forget]
  split <;> grind

end PullState

end Melissi.Machine
