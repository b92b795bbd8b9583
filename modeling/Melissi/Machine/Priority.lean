import Melissi.Machine.Safety

/-!
# What the priority guard holds back

The guard compares an id with the arrived ids that have a holder left and are not addressed. Of two
kinds of such ids only one can be leased: with the live gate shut the post-cursor arrivals cannot,
but the guard still waits for them.
-/

namespace Melissi.Machine.PullState

open Melissi.Common
open Std (ExtTreeMap ExtTreeSet)

variable {C : Type} [LinearOrder C] {m : PullState C}

/-- The same machine with the priority knob set. -/
def withPriority (m : PullState C) (on : Bool) : PullState C :=
  { m with cfg := { m.cfg with priority := on } }

/-- `p` can be asked for `c` as far as the order of the ids is left aside. -/
structure Open (m : PullState C) (c : C) (p : PeerId) : Prop where
  arrived : c ∈ m.arrived
  held : m.Held c p
  missing : c ∉ m.got
  free : ¬ m.Leased c p
  unbarred : ¬ m.Barred c p
  single : m.cfg.dedup → c ∉ m.want
  gate : c ∈ m.live → m.cfg.enableLive

/-- A post-cursor arrival that the shut gate keeps from being leased, although it has a holder left.
-/
structure Gated (m : PullState C) (d : C) : Prop where
  shut : ¬ m.cfg.enableLive
  arrived : d ∈ m.arrived
  live : d ∈ m.live
  eligible : m.eligible d
  free : d ∉ m.want

/-- Without the order what can be asked is claimable. -/
theorem claimable_off (hs : ¬ m.cfg.singleSource) (c : C) (p : PeerId) :
    (m.withPriority false).claimable c p ↔ m.Open c p := by
  rw [claimable_iff]
  constructor
  · rintro ⟨ha, hh, hg, hl, hb, hd, -, he, -⟩
    exact ⟨ha, hh, hg, hl, hb, hd, he⟩
  · rintro ⟨ha, hh, hg, hl, hb, hd, he⟩
    exact ⟨ha, hh, hg, hl, hb, hd, fun h => absurd h hs, he, rfl⟩

/-- With the order it has to be no shallower than the ids the guard waits for. -/
theorem claimable_on (hs : ¬ m.cfg.singleSource) (c : C) (p : PeerId) :
    (m.withPriority true).claimable c p ↔ m.Open c p ∧ ∀ d ∈ m.arrived,
      m.prioOf d ≤ m.prioOf c ∨ ¬ m.eligible d ∨ m.addressed d := by
  rw [← claimable_off hs, claimable_iff, claimable_iff, prioOk_iff (m.withPriority true),
    prioOk_iff (m.withPriority false)]
  constructor
  · rintro ⟨ha, hh, hg, hl, hb, hd, hsingle, he, hok⟩
    exact ⟨⟨ha, hh, hg, hl, hb, hd, hsingle, he, fun h => absurd h Bool.false_ne_true⟩, hok rfl⟩
  · rintro ⟨⟨ha, hh, hg, hl, hb, hd, hsingle, he, -⟩, hok⟩
    exact ⟨ha, hh, hg, hl, hb, hd, hsingle, he, fun _ => hok⟩

/-- An id the guard waits for can be asked for, or is behind the gate. -/
theorem open_or_gated {d : C} (harr : d ∈ m.arrived) (he : m.eligible d) (ha : ¬ m.addressed d) :
    (∃ p, m.Open d p) ∨ m.Gated d := by
  obtain ⟨hgot, p, hp, hbar⟩ := (m.eligible_iff d).mp he
  have hfree : d ∉ m.want := fun h => ha ((m.addressed_iff d).mpr (.inr h))
  by_cases hgate : d ∈ m.live → m.cfg.enableLive
  · refine .inl ⟨p, harr, hp, hgot, fun hl => hfree ?_, hbar, fun _ => hfree, hgate⟩
    obtain ⟨s, hs, -⟩ := (setContains_iff m.want d p).mp hl
    exact ExtTreeMap.isSome_getElem?_iff_mem.mp (by simp [hs])
  · obtain ⟨hlive, hshut⟩ := Classical.not_imp.mp hgate
    exact .inr ⟨hshut, harr, hlive, he, hfree⟩

/-- Of the ids that can be asked for there is a deepest. -/
theorem exists_deepest (h : ∃ c p, m.Open c p) :
    ∃ c p, m.Open c p ∧ ∀ d q, m.Open d q → m.prioOf d ≤ m.prioOf c := by
  classical
  obtain ⟨c₀, p₀, h₀⟩ := h
  obtain ⟨c, hc, hmax⟩ := Finset.exists_max_image
    (m.arrived.toList.toFinset.filter fun d => ∃ q, m.Open d q) m.prioOf
    ⟨c₀, by simpa using ⟨h₀.arrived, p₀, h₀⟩⟩
  obtain ⟨p, hp⟩ := (Finset.mem_filter.mp hc).2
  exact ⟨c, p, hp, fun d q hd => hmax d (by simpa using ⟨hd.arrived, q, hd⟩)⟩

/-- If something can be asked for and no gate is shut, something is claimable: of what can be asked
for, the deepest. -/
theorem exists_claimable_of_open (hs : ¬ m.cfg.singleSource) (hl : m.cfg.enableLive)
    (h : ∃ c p, m.Open c p) : ∃ c p, m.claimable c p := by
  obtain ⟨c, p, hc, hmax⟩ := exists_deepest h
  refine ⟨c, p, (m.claimable_iff c p).mpr ⟨hc.arrived, hc.held, hc.missing, hc.free, hc.unbarred,
    hc.single, fun hn => absurd hn hs, hc.gate, (m.prioOk_iff c).mpr fun _ d harr => ?_⟩⟩
  by_cases hwait : m.eligible d ∧ ¬ m.addressed d
  · rcases open_or_gated harr hwait.1 hwait.2 with ⟨q, hq⟩ | hd
    · exact .inl (hmax d q hq)
    · exact absurd hl hd.shut
  · exact .inr (by tauto)

/-- The order is neutral exactly where it does not wait for an id behind the gate: whatever it lets
through may be claimed without it, and it lets something through whenever something may be claimed
without it, if and only if no gated id is deeper than everything that can be asked for. -/
theorem priority_neutral_iff (hs : ¬ m.cfg.singleSource) :
    (((∃ c p, (m.withPriority false).claimable c p) → ∃ c p, (m.withPriority true).claimable c p)
        ∧ ∀ c p, (m.withPriority true).claimable c p → (m.withPriority false).claimable c p)
      ↔ ∀ d, m.Gated d → (∃ c p, m.Open c p) → ∃ c p, m.Open c p ∧ m.prioOf d ≤ m.prioOf c := by
  simp only [claimable_off hs, claimable_on hs]
  constructor
  · rintro ⟨hsome, -⟩ d hd hopen
    obtain ⟨c, p, hc, hok⟩ := hsome hopen
    refine ⟨c, p, hc, (hok d hd.arrived).resolve_right ?_⟩
    rw [addressed_iff]
    rintro (hne | hgot | hwant)
    · exact hne hd.eligible
    · exact ((m.eligible_iff d).mp hd.eligible).1 hgot
    · exact hd.free hwant
  · intro hgate
    refine ⟨fun hopen => ?_, fun _ _ h => h.1⟩
    -- the deepest id that can be asked for passes the guard
    obtain ⟨c, p, hc, hmax⟩ := exists_deepest hopen
    refine ⟨c, p, hc, fun d harr => ?_⟩
    by_cases hwait : m.eligible d ∧ ¬ m.addressed d
    · refine .inl ?_
      rcases open_or_gated harr hwait.1 hwait.2 with ⟨q, hq⟩ | hd
      · exact hmax d q hq
      · obtain ⟨c', q, hc', hle⟩ := hgate d hd hopen
        exact hle.trans (hmax c' q hc')
    · exact .inr (by tauto)

/-- An id with a holder behind an open gate. -/
theorem priority_neutral_new :
    ∃ c p, (((new Config.production : PullState ℕ).acts
      [.arriveLive 7, .observeHolder 7 1]).withPriority true).claimable c p :=
  ((priority_neutral_iff (by decide)).mpr fun _ hd => absurd rfl hd.shut).1
    ⟨7, 1, by decide +kernel⟩

/-- With the gate shut a deep post-cursor arrival holds back everything: here 1 is behind the gate,
and 2 could be leased but for the order. -/
theorem priority_blocks :
    ∃ (cfg : Config) (m : PullState ℕ), cfg.singleSource = false ∧ Reachable cfg m
      ∧ (∃ c p, (m.withPriority false).claimable c p)
      ∧ ¬ ∃ c p, (m.withPriority true).claimable c p := by
  refine ⟨{ Config.production with enableLive := false }, _, rfl,
    .acts .refl [.observeHolder 1 1, .observeHolder 2 1, .setPrio 1 5, .arriveLive 1, .arriveHist 2]
      (by simp [Admits, Admissible]), ⟨2, 1, by decide +kernel⟩, ?_⟩
  simp only [← mem_enabledWants]
  rintro ⟨c, p, h⟩
  rw [show enabledWants _ = [] by decide +kernel] at h
  exact absurd h (by simp)

end Melissi.Machine.PullState
