import Melissi.Common.Feed
import Melissi.Machine.Actions

/-!
# The machine's safety invariants

What `check_invariants` tests is not inductive by itself: a claim on a stored id would turn into a
double delivery, and a claim on a forgotten one would outlive its holder. `Claims` is the
strengthening that every action keeps; with it deliveries stay counted and no lease is ever on an id
that is settled, unheld or barred.
-/

namespace Melissi.Machine

open Melissi.Common
open Std (ExtTreeMap ExtTreeSet)

namespace PullState

variable {C : Type} [LinearOrder C]

/-! ## The invariant -/

/-- Every stored id was delivered once or held from the start. -/
structure Counted (m : PullState C) : Prop where
  noConflict : m.conflict = false
  floor : m.ndeliv + m.npre = m.got.size

/-- No map of sets keeps an empty set. -/
structure Normalised (m : PullState C) : Prop where
  want : Normal m.want
  holders : Normal m.holders
  excluded : Normal m.excluded

/-- Machines that keep the same are equal. -/
theorem ext_kept {m m' : PullState C} (hn : Normalised m)
    (hn' : Normalised m') (hcfg : m.cfg = m'.cfg)
    (hleased : ∀ c p, m.Leased c p ↔ m'.Leased c p) (hheld : ∀ c p, m.Held c p ↔ m'.Held c p)
    (hbarred : ∀ c p, m.Barred c p ↔ m'.Barred c p)
    (harrived : ∀ c, c ∈ m.arrived ↔ c ∈ m'.arrived) (hlive : ∀ c, c ∈ m.live ↔ c ∈ m'.live)
    (hrejected : ∀ c, c ∈ m.rejected ↔ c ∈ m'.rejected) (hgot : ∀ c, c ∈ m.got ↔ c ∈ m'.got)
    (hprio : m.prio = m'.prio) (hassign : m.assign = m'.assign)
    (hconflict : m.conflict = m'.conflict) (hndeliv : m.ndeliv = m'.ndeliv)
    (hnpre : m.npre = m'.npre) : m = m' := by
  have hwant : m.want = m'.want := hn.want.ext hn'.want hleased
  have hholders : m.holders = m'.holders := hn.holders.ext hn'.holders hheld
  have hexcluded : m.excluded = m'.excluded := hn.excluded.ext hn'.excluded hbarred
  have harrived : m.arrived = m'.arrived := ExtTreeSet.ext_mem fun {c} => harrived c
  have hlive : m.live = m'.live := ExtTreeSet.ext_mem fun {c} => hlive c
  have hrejected : m.rejected = m'.rejected := ExtTreeSet.ext_mem fun {c} => hrejected c
  have hgot : m.got = m'.got := ExtTreeSet.ext_mem fun {c} => hgot c
  obtain ⟨⟩ := m
  obtain ⟨⟩ := m'
  simp_all

/-- What holds of the ids with a claim in flight, and of the settled ones. -/
structure Claims (m : PullState C) : Prop where
  unique : m.cfg.dedup → ∀ c p q, m.Leased c p → m.Leased c q → p = q
  held : ∀ c p, m.Leased c p → m.Held c p
  unbarred : ∀ c p, m.Leased c p → ¬ m.Barred c p
  arrived : ∀ c p, m.Leased c p → c ∈ m.arrived
  unstored : ∀ c p, m.Leased c p → c ∉ m.got
  unrejected : ∀ c ∈ m.arrived, c ∉ m.rejected
  disjoint : ∀ c ∈ m.got, c ∉ m.rejected

/-- The invariant of the machine. -/
structure Safe (m : PullState C) : Prop where
  counted : Counted m
  normal : Normalised m
  claims : Claims m

/-- A preload names an id that is neither leased nor rejected; nothing is asked of the other
calls. -/
def Admissible (m : PullState C) : Action C → Prop
  | .preload c => c ∉ m.want ∧ c ∉ m.rejected
  | _ => True

/-- A claim in flight is recorded under its id. -/
theorem Leased.mem_want {m : PullState C} {c : C} {p : PeerId} (h : m.Leased c p) :
    c ∈ m.want := by
  obtain ⟨s, hs, -⟩ := (setContains_iff m.want c p).mp h
  exact ExtTreeMap.isSome_getElem?_iff_mem.mp (by simp [hs])

/-! ## What each call preserves -/

/-- No call changes the configuration. -/
@[simp] theorem act_cfg (m : PullState C) (a : Action C) : (m.act a).cfg = m.cfg := by
  cases a <;> simp [act]

theorem Normalised.act {m : PullState C} (h : Normalised m) (a : Action C) :
    Normalised (m.act a) := by
  obtain ⟨hw, hh, he⟩ := h
  cases a with
  | observeHolder c p => exact ⟨hw, hh.setInsert c p, he⟩
  | loseHolder c p => exact ⟨hw.setRemove c p, hh.setRemove c p, he⟩
  | want c p =>
    refine ⟨?_, by simpa [PullState.act] using hh, by simpa [PullState.act] using he⟩
    simp only [PullState.act, wantFrom]
    split
    · exact hw
    · exact hw.setInsert c p
  | deliver c p =>
    refine ⟨?_, by simpa [PullState.act] using hh, by simpa [PullState.act] using he⟩
    simp only [PullState.act, deliver]
    split
    · exact hw
    · exact hw.setRemove c p
  | stall c p =>
    simp only [PullState.act, stall]
    split
    · exact ⟨hw, hh, he⟩
    · refine ⟨hw.setRemove c p, hh, ?_⟩
      dsimp only
      split
      · exact he.setInsert c p
      · exact he
  | reject c =>
    refine ⟨?_, by simpa [PullState.act] using hh, by simpa [PullState.act] using he⟩
    simp only [PullState.act, reject]
    split
    · exact hw
    · exact hw.erase c
  | resetExcluded c =>
    refine ⟨by simpa [PullState.act] using hw, by simpa [PullState.act] using hh, ?_⟩
    simp only [PullState.act, resetExcluded]
    split
    · exact he
    · exact he.erase c
  | forget c =>
    simp only [PullState.act, forget]
    split
    · exact ⟨hw, hh, he⟩
    · exact ⟨hw, hh.erase c, he.erase c⟩
  | _ => exact ⟨by simpa [PullState.act] using hw, by simpa [PullState.act] using hh,
      by simpa [PullState.act] using he⟩

/-- Storing an id counts it once, unless a stored id is delivered: a preload checks. -/
theorem Counted.act {m : PullState C} (h : Counted m) {a : Action C}
    (hn : ∀ c p, a = .deliver c p → m.Leased c p → c ∉ m.got) : Counted (m.act a) := by
  obtain ⟨hconf, hfloor⟩ := h
  cases a with
  | preload c =>
    refine ⟨by simpa [PullState.act] using hconf, ?_⟩
    simp only [PullState.act, preload]
    split
    · exact hfloor
    · next hn =>
      simp only [ExtTreeSet.contains_iff_mem] at hn
      have hsize : (m.got.insert c).size = m.got.size + 1 := by simp [ExtTreeSet.size_insert, hn]
      dsimp only
      omega
  | deliver c p =>
    simp only [PullState.act, deliver]
    split
    · exact ⟨hconf, hfloor⟩
    · next hl =>
      have hn : c ∉ m.got := hn c p rfl (by simpa [Leased] using hl)
      refine ⟨by simp [hconf, hn], ?_⟩
      have hsize : (m.got.insert c).size = m.got.size + 1 := by simp [ExtTreeSet.size_insert, hn]
      dsimp only
      omega
  | _ => exact ⟨by simpa [PullState.act] using hconf, by simpa [PullState.act] using hfloor⟩

/-- A rejected id leaves the window for good, whatever the configuration. -/
theorem unrejected_act {m : PullState C} (h : ∀ c ∈ m.arrived, c ∉ m.rejected) (a : Action C) :
    ∀ c ∈ (m.act a).arrived, c ∉ (m.act a).rejected := by
  intro d hd
  cases a with
  | reject c =>
    obtain ⟨hne, hd⟩ := (m.mem_arrived_reject c d).mp hd
    rw [PullState.act, mem_rejected_reject]
    rintro (⟨rfl, hg⟩ | hr)
    · exact hne ⟨rfl, hg, h c hd⟩
    · exact h d hd hr
  | arriveHist c =>
    rw [PullState.act] at hd ⊢
    simp only [arriveHist_frame]
    rcases (m.mem_arrived_arriveHist c d).mp hd with hd | ⟨-, -, hr⟩
    · exact h d hd
    · exact hr
  | arriveLive c =>
    rw [PullState.act] at hd ⊢
    simp only [arriveLive_frame]
    rcases (m.mem_arrived_arriveLive c d).mp hd with hd | ⟨-, -, hr⟩
    · exact h d hd
    · exact hr
  | forget c =>
    rw [PullState.act] at hd ⊢
    simp only [forget_frame]
    exact h d ((m.mem_arrived_forget c d).mp hd).2
  | _ => simpa [PullState.act] using h d (by simpa [PullState.act] using hd)

/-- Nothing rejected is stored: a delivery was claimed, so it has arrived, and a preload is
admissible. -/
theorem Claims.disjoint_act {m : PullState C} (h : Claims m) {a : Action C} (ha : m.Admissible a) :
    ∀ c ∈ (m.act a).got, c ∉ (m.act a).rejected := by
  intro d hg
  cases a with
  | preload c =>
    rw [PullState.act, mem_got_preload] at hg
    simp only [PullState.act, preload_frame]
    rcases hg with rfl | hg
    · exact ha.2
    · exact h.disjoint d hg
  | deliver c p =>
    rw [PullState.act, mem_got_deliver] at hg
    simp only [PullState.act, deliver_frame]
    rcases hg with ⟨rfl, hl⟩ | hg
    · exact h.unrejected c (h.arrived c p hl)
    · exact h.disjoint d hg
  | reject c =>
    simp only [PullState.act, reject_frame] at hg
    rw [PullState.act, mem_rejected_reject]
    rintro (⟨rfl, hng⟩ | hr)
    · exact hng hg
    · exact h.disjoint d hg hr
  | _ => simpa [PullState.act] using h.disjoint d (by simpa [PullState.act] using hg)

/-- The claims stand if none is new and each that is left still has its holder, is not barred, has
arrived and is not stored. -/
theorem Claims.shrink {m m' : PullState C} (h : Claims m) (hcfg : m'.cfg = m.cfg)
    (hleft : ∀ c p, m'.Leased c p → m.Leased c p ∧ m'.Held c p ∧ ¬ m'.Barred c p ∧ c ∈ m'.arrived
      ∧ c ∉ m'.got)
    (hunrej : ∀ c ∈ m'.arrived, c ∉ m'.rejected) (hdisj : ∀ c ∈ m'.got, c ∉ m'.rejected) :
    Claims m' where
  unique hd c p q hp hq := h.unique (hcfg ▸ hd) c p q (hleft c p hp).1 (hleft c q hq).1
  held c p hl := (hleft c p hl).2.1
  unbarred c p hl := (hleft c p hl).2.2.1
  arrived c p hl := (hleft c p hl).2.2.2.1
  unstored c p hl := (hleft c p hl).2.2.2.2
  unrejected := hunrej
  disjoint := hdisj

/-- A claim is only made on a held, unbarred, arrived and unstored id that nothing claims. -/
theorem Claims.wantFrom {m : PullState C} (h : Claims m) (c : C) (p : PeerId) :
    Claims (m.wantFrom c p).1 := by
  have hsub : ∀ d q, (m.wantFrom c p).1.Leased d q →
      (m.claimable c p ∧ c = d ∧ p = q) ∨ m.Leased d q := by
    simp
  refine ⟨?_, ?_, ?_, ?_, ?_, ?_, ?_⟩ <;> simp only [wantFrom_frame]
  · intro hd d q q' hq hq'
    -- a second claim on `c` is excluded by the `dedup` conjunct of the guard
    have hfree : m.claimable c p → ∀ q', ¬ m.Leased c q' := fun hcl q' hl =>
      ((m.claimable_iff c p).mp hcl).2.2.2.2.2.1 hd hl.mem_want
    rcases hsub d q hq with ⟨hcl, rfl, rfl⟩ | hl
    · rcases hsub c q' hq' with ⟨-, -, rfl⟩ | hl'
      · rfl
      · exact absurd hl' (hfree hcl q')
    · rcases hsub d q' hq' with ⟨hcl, rfl, rfl⟩ | hl'
      · exact absurd hl (hfree hcl q)
      · exact h.unique hd d q q' hl hl'
  · intro d q hq
    rcases hsub d q hq with ⟨hcl, rfl, rfl⟩ | hl
    · exact ((m.claimable_iff _ _).mp hcl).2.1
    · exact h.held d q hl
  · intro d q hq
    rcases hsub d q hq with ⟨hcl, rfl, rfl⟩ | hl
    · exact ((m.claimable_iff _ _).mp hcl).2.2.2.2.1
    · exact h.unbarred d q hl
  · intro d q hq
    rcases hsub d q hq with ⟨hcl, rfl, rfl⟩ | hl
    · exact ((m.claimable_iff _ _).mp hcl).1
    · exact h.arrived d q hl
  · intro d q hq
    rcases hsub d q hq with ⟨hcl, rfl, rfl⟩ | hl
    · exact ((m.claimable_iff _ _).mp hcl).2.2.1
    · exact h.unstored d q hl
  · exact h.unrejected
  · exact h.disjoint

/-- Every other call leaves no claim but those it leaves something to stand on. -/
theorem Claims.left_act {m : PullState C} (hd : m.cfg.dedup) (h : Claims m) {a : Action C}
    (ha : m.Admissible a) (hne : ∀ c p, a ≠ .want c p) {d : C} {q : PeerId}
    (hl : (m.act a).Leased d q) : m.Leased d q ∧ (m.act a).Held d q ∧ ¬ (m.act a).Barred d q
      ∧ d ∈ (m.act a).arrived ∧ d ∉ (m.act a).got := by
  have hstands : ∀ c p, m.Leased c p →
      m.Leased c p ∧ m.Held c p ∧ ¬ m.Barred c p ∧ c ∈ m.arrived ∧ c ∉ m.got := fun c p hl =>
    ⟨hl, h.held c p hl, h.unbarred c p hl, h.arrived c p hl, h.unstored c p hl⟩
  cases a with
  | want c p => exact absurd rfl (hne c p)
  | setPrio c depth => exact hstands d q hl
  | setAssign c p => exact hstands d q hl
  | observeHolder c p =>
    obtain ⟨hl, hheld, hrest⟩ := hstands d q hl
    exact ⟨hl, (m.held_observeHolder c d p q).mpr (.inr hheld), hrest⟩
  | loseHolder c p =>
    obtain ⟨hkept, hl⟩ := (m.leased_loseHolder c d p q).mp hl
    obtain ⟨hl, hheld, hrest⟩ := hstands d q hl
    exact ⟨hl, (m.held_loseHolder c d p q).mpr ⟨hkept, hheld⟩, hrest⟩
  | preload c =>
    simp only [PullState.act, preload_frame, mem_got_preload] at hl ⊢
    obtain ⟨hl, hheld, hbarred, harrived, hgot⟩ := hstands d q hl
    refine ⟨hl, hheld, hbarred, harrived, ?_⟩
    rintro (rfl | hg)
    · exact ha.1 hl.mem_want
    · exact hgot hg
  | arriveHist c =>
    simp only [PullState.act, arriveHist_frame, mem_arrived_arriveHist] at hl ⊢
    obtain ⟨hl, hheld, hbarred, harrived, hgot⟩ := hstands d q hl
    exact ⟨hl, hheld, hbarred, .inl harrived, hgot⟩
  | arriveLive c =>
    simp only [PullState.act, arriveLive_frame, mem_arrived_arriveLive] at hl ⊢
    obtain ⟨hl, hheld, hbarred, harrived, hgot⟩ := hstands d q hl
    exact ⟨hl, hheld, hbarred, .inl harrived, hgot⟩
  | deliver c p =>
    simp only [PullState.act, deliver_frame, leased_deliver, mem_got_deliver] at hl ⊢
    obtain ⟨hkept, hl⟩ := hl
    obtain ⟨hl, hheld, hbarred, harrived, hgot⟩ := hstands d q hl
    refine ⟨hl, hheld, hbarred, harrived, ?_⟩
    rintro (⟨rfl, hlp⟩ | hg)
    · -- the claim that was delivered was the only one
      exact hkept ⟨rfl, h.unique hd c p q hlp hl⟩
    · exact hgot hg
  | stall c p =>
    simp only [PullState.act, stall_frame, leased_stall, barred_stall] at hl ⊢
    obtain ⟨hkept, hl⟩ := hl
    obtain ⟨hl, hheld, hbarred, hrest⟩ := hstands d q hl
    refine ⟨hl, hheld, ?_, hrest⟩
    rintro (⟨⟨hf, -, -⟩, rfl, rfl⟩ | hb)
    · exact hkept ⟨hf, rfl, rfl⟩
    · exact hbarred hb
  | reject c =>
    simp only [PullState.act, reject_frame, leased_reject, mem_arrived_reject] at hl ⊢
    obtain ⟨hkept, hl⟩ := hl
    obtain ⟨hl, hheld, hbarred, harrived, hgot⟩ := hstands d q hl
    exact ⟨hl, hheld, hbarred, ⟨hkept, harrived⟩, hgot⟩
  | resetExcluded c =>
    simp only [PullState.act, resetExcluded_frame, barred_resetExcluded] at hl ⊢
    obtain ⟨hl, hheld, hbarred, hrest⟩ := hstands d q hl
    exact ⟨hl, hheld, fun hb => hbarred hb.2, hrest⟩
  | forget c =>
    simp only [PullState.act, forget_frame, held_forget, barred_forget, mem_arrived_forget] at hl ⊢
    obtain ⟨hl, hheld, hbarred, harrived, hgot⟩ := hstands d q hl
    have hkept : ¬ (c = d ∧ (c ∈ m.got ∨ c ∈ m.rejected)) := by
      rintro ⟨rfl, hg | hr⟩
      · exact hgot hg
      · exact h.unrejected c harrived hr
    exact ⟨hl, ⟨hkept, hheld⟩, fun hb => hbarred hb.2, ⟨hkept, harrived⟩, hgot⟩

theorem Claims.act {m : PullState C} (hd : m.cfg.dedup) (h : Claims m) (a : Action C)
    (ha : m.Admissible a) : Claims (m.act a) := by
  by_cases hw : ∃ c p, a = .want c p
  · obtain ⟨c, p, rfl⟩ := hw
    exact h.wantFrom c p
  · exact h.shrink (act_cfg m a) (fun c p hl => h.left_act hd ha (fun c p he => hw ⟨c, p, he⟩) hl)
      (unrejected_act h.unrejected a) (h.disjoint_act ha)

theorem Safe.act {m : PullState C} (hd : m.cfg.dedup) (h : Safe m) (a : Action C)
    (ha : m.Admissible a) : Safe (m.act a) :=
  ⟨h.counted.act fun c p _ hl => h.claims.unstored c p hl, h.normal.act a, h.claims.act hd a ha⟩

theorem safe_new (cfg : Config) : Safe (new cfg : PullState C) where
  counted := ⟨rfl, by simp [new]⟩
  normal := ⟨Normal.empty, Normal.empty, Normal.empty⟩
  claims := by constructor <;> simp [new, Leased]

/-! ## What no call takes back -/

/-- A stored id stays stored. -/
theorem got_act (m : PullState C) (a : Action C) : ∀ c ∈ m.got, c ∈ (m.act a).got := by
  intro c hc
  cases a <;> simp [act, hc]

/-- A rejected id stays rejected. -/
theorem rejected_act (m : PullState C) (a : Action C) :
    ∀ c ∈ m.rejected, c ∈ (m.act a).rejected := by
  intro c hc
  cases a <;> simp [act, hc]

/-! ## Reachable states -/

/-- One admissible call. -/
def Step (m m' : PullState C) : Prop :=
  ∃ a, m.Admissible a ∧ m' = m.act a

/-- The states some finite sequence of admissible calls leads to. -/
abbrev Reachable (cfg : Config) (m : PullState C) : Prop :=
  Relation.ReflTransGen Step (new cfg) m

/-- Each call of the list is admissible where it is made. -/
def Admits : PullState C → List (Action C) → Prop
  | _, [] => True
  | m, a :: as => m.Admissible a ∧ (m.act a).Admits as

theorem Reachable.acts {cfg : Config} {m : PullState C} (h : Reachable cfg m)
    (as : List (Action C)) (has : m.Admits as) : Reachable cfg (m.acts as) := by
  induction as generalizing m with
  | nil => exact h
  | cons a as ih => exact ih (h.tail ⟨a, has.1, rfl⟩) has.2

theorem Reachable.cfg_eq {cfg : Config} {m : PullState C} (h : Reachable cfg m) :
    m.cfg = cfg := by
  induction h with
  | refl => rfl
  | tail _ hs ih =>
    obtain ⟨a, -, rfl⟩ := hs
    rw [act_cfg, ih]

theorem Reachable.safe {cfg : Config} (hd : cfg.dedup) {m : PullState C} (h : Reachable cfg m) :
    Safe m := by
  induction h with
  | refl => exact safe_new cfg
  | tail hr hs ih =>
    obtain ⟨a, ha, rfl⟩ := hs
    exact ih.act (by rw [Reachable.cfg_eq hr]; exact hd) a ha

/-- What the settled sets hold, they hold after any further calls. -/
theorem settled_mono {m m' : PullState C} (h : Relation.ReflTransGen Step m m') :
    (∀ c ∈ m.got, c ∈ m'.got) ∧ ∀ c ∈ m.rejected, c ∈ m'.rejected := by
  induction h with
  | refl => exact ⟨fun _ hc => hc, fun _ hc => hc⟩
  | tail _ hs ih =>
    obtain ⟨a, -, rfl⟩ := hs
    exact ⟨fun c hc => got_act _ a c (ih.1 c hc), fun c hc => rejected_act _ a c (ih.2 c hc)⟩

/-! ## Calls after the start -/

/-- Every call but the preload, which is only made before sync begins. -/
def Call (m m' : PullState C) : Prop :=
  ∃ a : Action C, (match a with | .preload _ => False | _ => True) ∧ m' = m.act a

/-- What finitely many such calls lead to. -/
abbrev Calls (m m' : PullState C) : Prop := Relation.ReflTransGen Call m m'

theorem Call.step {m m' : PullState C} (h : Call m m') : Step m m' := by
  obtain ⟨a, ha, rfl⟩ := h
  refine ⟨a, ?_, rfl⟩
  cases a <;> trivial

/-- An invariant that every such call keeps, finitely many keep. -/
theorem Calls.induct {I : PullState C → Prop} (hI : ∀ m a, I m → I (m.act a))
    {m m' : PullState C} (h : Calls m m') (hm : I m) : I m' := by
  induction h with
  | refl => exact hm
  | tail _ hs ih =>
    obtain ⟨a, -, rfl⟩ := hs
    exact hI _ a ih

theorem Calls.cfg_eq {m m' : PullState C} (h : Calls m m') : m'.cfg = m.cfg :=
  h.induct (I := fun m' => m'.cfg = m.cfg) (fun m' a hm => (act_cfg m' a).trans hm) rfl

theorem Calls.normal {m m' : PullState C} (h : Calls m m') (hm : Normalised m) : Normalised m' :=
  h.induct (fun _ a hm => hm.act a) hm

theorem Calls.settled_mono {m m' : PullState C} (h : Calls m m') :
    (∀ c ∈ m.got, c ∈ m'.got) ∧ ∀ c ∈ m.rejected, c ∈ m'.rejected :=
  ⟨fun c hc => h.induct (I := fun m' => c ∈ m'.got) (fun m a => got_act m a c) hc,
    fun c hc => h.induct (I := fun m' => c ∈ m'.rejected) (fun m a => rejected_act m a c) hc⟩

theorem Calls.unrejected {m m' : PullState C} (h : Calls m m')
    (hm : ∀ c ∈ m.arrived, c ∉ m.rejected) : ∀ c ∈ m'.arrived, c ∉ m'.rejected :=
  h.induct (I := fun m' => ∀ c ∈ m'.arrived, c ∉ m'.rejected) (fun _ a hm => unrejected_act hm a) hm

theorem Calls.safe {m m' : PullState C} (h : Calls m m') (hd : m.cfg.dedup) (hm : Safe m) :
    Safe m' := by
  induction h with
  | refl => exact hm
  | tail hr hs ih =>
    obtain ⟨a, ha, rfl⟩ := hs.step
    exact ih.act (by rw [Calls.cfg_eq hr]; exact hd) a ha

/-- A loop of calls. -/
theorem Calls.foldl {ι : Type} (g : PullState C → ι → PullState C) (l : List ι)
    (hg : ∀ m i, Calls m (g m i)) (m : PullState C) : Calls m (l.foldl g m) :=
  foldl_invariant g l (fun m' h i _ => h.trans (hg m' i)) .refl

/-- The four checks pass on a safe state. -/
theorem Safe.checkInvariants {m : PullState C} (hd : m.cfg.dedup) (h : Safe m) :
    m.checkInvariants = .ok () := by
  have hentry : ∀ e ∈ m.want.toList, ∀ p ∈ e.2, m.Leased e.1 p := by
    intro e he p hp
    exact (setContains_iff_mem_toList _ _ _).mpr ⟨e.2, he, hp⟩
  have hsize : ∀ e ∈ m.want.toList, e.2.size ≤ 1 := by
    intro e he
    exact size_le_one fun p hp q hq =>
      h.claims.unique hd e.1 p q (hentry e he p hp) (hentry e he q hq)
  have hlive : ∀ e ∈ m.want.toList, ∀ p ∈ e.2, m.Held e.1 p ∧ ¬ m.Barred e.1 p :=
    fun e he p hp => ⟨h.claims.held _ _ (hentry e he p hp), h.claims.unbarred _ _ (hentry e he p hp)⟩
  unfold PullState.checkInvariants
  rw [if_neg (by simp [h.counted.noConflict]), if_neg (by simp [h.counted.floor]), if_neg, if_neg]
  · simp only [List.any_eq_true, not_exists, not_and, ExtTreeSet.mem_toList]
    intro e he p hp
    simpa [Held, Barred] using hlive e he p hp
  · simp only [Bool.and_eq_true, List.any_eq_true, not_and, not_exists]
    intro _ e he
    simpa using hsize e he

/-- Every state that admissible calls reach is safe: the checks pass, no empty set is kept, every
leased id is arrived and unsettled, the settled sets are disjoint, and no further call shrinks
them. -/
theorem reachable_invariants {cfg : Config} (hd : cfg.dedup) {m : PullState C}
    (h : Reachable cfg m) :
    m.checkInvariants = .ok ()
      ∧ (Normal m.want ∧ Normal m.holders ∧ Normal m.excluded)
      ∧ (∀ c ∈ m.want, c ∈ m.arrived ∧ c ∉ m.got ∧ c ∉ m.rejected)
      ∧ (∀ c ∈ m.got, c ∉ m.rejected)
      ∧ ∀ m', Relation.ReflTransGen Step m m' →
          (∀ c ∈ m.got, c ∈ m'.got) ∧ ∀ c ∈ m.rejected, c ∈ m'.rejected := by
  have hs := h.safe hd
  refine ⟨hs.checkInvariants (by rw [h.cfg_eq]; exact hd),
    ⟨hs.normal.want, hs.normal.holders, hs.normal.excluded⟩, ?_, hs.claims.disjoint,
    fun m' hm' => settled_mono hm'⟩
  intro c hc
  obtain ⟨p, hl⟩ := (hs.normal.want.mem_iff c).mp hc
  have harr := hs.claims.arrived c p hl
  exact ⟨harr, hs.claims.unstored c p hl, hs.claims.unrejected c harr⟩

/-- One id held, arrived and claimed. -/
theorem reachable_invariants_claimed :
    ((((new Config.production : PullState ℕ).act (.observeHolder 7 1)).act (.arriveHist 7)).act
      (.want 7 1)).checkInvariants = .ok () :=
  (reachable_invariants (show Config.production.dedup from rfl)
    (((Relation.ReflTransGen.refl.tail ⟨.observeHolder 7 1, trivial, rfl⟩).tail
      ⟨.arriveHist 7, trivial, rfl⟩).tail ⟨.want 7 1, trivial, rfl⟩)).1

end PullState

end Melissi.Machine
