import Melissi.Machine.Sum

/-!
# Garbage collection is behaviour-neutral

A machine and the same machine after `forget(c)`, for a settled `c`, differ in the soft entries of
`c` only: its holders, bars, arrival and priority. No guard asks for these once `c` is settled, so
the two stay in step under every further call.
-/

namespace Melissi.Machine.PullState

open Melissi.Common
open Std (ExtTreeMap ExtTreeSet)

variable {C : Type} [LinearOrder C]

/-- The leases and the terminal record: what no garbage collection touches. -/
structure Terminal (m m' : PullState C) : Prop where
  cfg : m.cfg = m'.cfg
  want : m.want = m'.want
  rejected : m.rejected = m'.rejected
  got : m.got = m'.got
  conflict : m.conflict = m'.conflict
  ndeliv : m.ndeliv = m'.ndeliv

/-- They move by themselves and by what may be claimed. -/
theorem Terminal.act {m m' : PullState C} (h : Terminal m m') {a : Action C}
    (hcl : ∀ p, m.claimable a.chunk p = m'.claimable a.chunk p) : Terminal (m.act a) (m'.act a) := by
  obtain ⟨hcfg, hwant, hrej, hgot, hconf, hnd⟩ := h
  have hfail := congrArg Config.failover hcfg
  cases a <;> dsimp only [Action.chunk] at hcl <;> dsimp only [PullState.act]
  case preload c =>
    unfold PullState.preload
    rw [hgot]
    split_ifs
    · exact ⟨hcfg, hwant, hrej, hgot, hconf, hnd⟩
    · exact ⟨hcfg, hwant, hrej, rfl, hconf, hnd⟩
  case loseHolder c p =>
    unfold PullState.loseHolder
    exact ⟨hcfg, by simp only [hwant], hrej, hgot, hconf, hnd⟩
  case arriveHist c =>
    unfold PullState.arriveHist
    rw [hgot, hrej]
    split_ifs <;> exact ⟨hcfg, hwant, by simp only [hrej], by simp only [hgot], hconf, hnd⟩
  case arriveLive c =>
    unfold PullState.arriveLive
    rw [hgot, hrej]
    split_ifs <;> exact ⟨hcfg, hwant, by simp only [hrej], by simp only [hgot], hconf, hnd⟩
  case want c p =>
    unfold PullState.wantFrom
    rw [hcl p]
    split_ifs
    · exact ⟨hcfg, hwant, hrej, hgot, hconf, hnd⟩
    · exact ⟨hcfg, by simp only [hwant], hrej, hgot, hconf, hnd⟩
  case deliver c p =>
    unfold PullState.deliver
    rw [hwant]
    split_ifs
    · exact ⟨hcfg, hwant, hrej, hgot, hconf, hnd⟩
    · exact ⟨hcfg, rfl, hrej, by simp only [hgot], by simp only [hconf, hgot], by simp only [hnd]⟩
  case stall c p =>
    unfold PullState.stall
    rw [hwant, hfail]
    split
    · exact ⟨hcfg, hwant, hrej, hgot, hconf, hnd⟩
    · exact ⟨hcfg, rfl, hrej, hgot, hconf, hnd⟩
  case reject c =>
    unfold PullState.reject
    rw [hgot, hrej]
    split_ifs
    · exact ⟨hcfg, hwant, hrej, hgot, hconf, hnd⟩
    · exact ⟨hcfg, by simp only [hwant], rfl, by simp only, hconf, hnd⟩
  case resetExcluded c =>
    unfold PullState.resetExcluded
    split_ifs <;> exact ⟨hcfg, hwant, hrej, hgot, hconf, hnd⟩
  case forget c =>
    unfold PullState.forget
    rw [hgot, hrej]
    split_ifs <;> exact ⟨hcfg, hwant, by simp only [hrej], by simp only [hgot], hconf, hnd⟩
  all_goals exact ⟨hcfg, hwant, hrej, hgot, hconf, hnd⟩

/-- Two machines agree but for the soft entries of `c`, which is settled. -/
structure Neutral (c : C) (m m' : PullState C) : Prop where
  terminal : Terminal m m'
  others : ∀ d, d ≠ c → SameAt d m m'
  settled : c ∈ m.got ∨ c ∈ m.rejected
  safe : Safe m
  safe' : Safe m'

section Guards

variable {c : C} {m m' : PullState C}

/-- A settled id that still counts as arrived is stored. -/
theorem got_of_arrived (hs : Safe m) (hc : c ∈ m.got ∨ c ∈ m.rejected) (ha : c ∈ m.arrived) :
    c ∈ m.got :=
  hc.resolve_right (hs.claims.unrejected c ha)

theorem Neutral.symm (h : Neutral c m m') : Neutral c m' m where
  terminal := ⟨h.terminal.cfg.symm, h.terminal.want.symm, h.terminal.rejected.symm,
    h.terminal.got.symm, h.terminal.conflict.symm, h.terminal.ndeliv.symm⟩
  others d hd := (h.others d hd).symm
  settled := by
    rw [← h.terminal.got, ← h.terminal.rejected]
    exact h.settled
  safe := h.safe'
  safe' := h.safe

theorem SameAt.held {d : C} (h : SameAt d m m') (p : PeerId) : m.Held d p ↔ m'.Held d p := by
  rw [Held, Held, setContains, setContains, h.holders]

theorem SameAt.barred {d : C} (h : SameAt d m m') (p : PeerId) : m.Barred d p ↔ m'.Barred d p := by
  rw [Barred, Barred, setContains, setContains, h.excluded]

theorem SameAt.eligible {d : C} (h : SameAt d m m') : m.eligible d ↔ m'.eligible d := by
  rw [eligible_iff, eligible_iff, ← ExtTreeSet.contains_iff_mem, ← ExtTreeSet.contains_iff_mem, h.got]
  simp only [h.held, h.barred]

theorem SameAt.addressed {d : C} (h : SameAt d m m') : m.addressed d = m'.addressed d := by
  rw [PullState.addressed, PullState.addressed, h.got, h.contains_want]

theorem SameAt.prioOf {d : C} (h : SameAt d m m') : m.prioOf d = m'.prioOf d := by
  rw [PullState.prioOf, PullState.prioOf, h.prio]

/-- The priority guard of another id does not see the soft entries of a settled one. -/
theorem Neutral.prioOk_of (h : Neutral c m m') {d : C} (hd : d ≠ c) (hok : m.prioOk d) :
    m'.prioOk d := by
  refine (m'.prioOk_iff d).mpr fun hp e he => ?_
  by_cases hec : e = c
  · subst hec
    exact .inr (.inl fun hel =>
      ((m'.eligible_iff e).mp hel).1 (got_of_arrived h.safe' h.symm.settled he))
  · have hs := h.others e hec
    rw [← (h.others d hd).prioOf, ← hs.prioOf, ← hs.eligible, ← hs.addressed]
    refine (m.prioOk_iff d).mp hok (by rw [h.terminal.cfg]; exact hp) e ?_
    rw [← ExtTreeSet.contains_iff_mem, hs.arrived]
    exact ExtTreeSet.contains_iff_mem.mpr he

/-- A settled id is not claimable. -/
theorem not_claimable_of_settled (hs : Safe m) (hc : c ∈ m.got ∨ c ∈ m.rejected) (p : PeerId) :
    ¬ m.claimable c p := fun h => by
  obtain ⟨harr, -, hgot, -⟩ := (m.claimable_iff c p).mp h
  exact hgot (got_of_arrived hs hc harr)

theorem Neutral.claimable (h : Neutral c m m') (d : C) (p : PeerId) :
    m.claimable d p = m'.claimable d p := by
  by_cases hd : d = c
  · subst hd
    rw [Bool.eq_false_iff.mpr (not_claimable_of_settled h.safe h.settled p),
      Bool.eq_false_iff.mpr (not_claimable_of_settled h.safe' h.symm.settled p)]
  · have hs := h.others d hd
    have hok : m.prioOk d = m'.prioOk d :=
      Bool.eq_iff_iff.mpr ⟨h.prioOk_of hd, h.symm.prioOk_of hd⟩
    unfold PullState.claimable
    rw [hs.leased, hs.contains_want, hs.arrived, hs.got, hs.live, hs.cfg, hs.assign, hok]
    simp only [setContains, hs.holders, hs.excluded]

/-- The bars of a settled id are not reset. -/
theorem not_canReset_of_settled (hs : Safe m) (hc : c ∈ m.got ∨ c ∈ m.rejected) :
    ¬ m.canResetExcluded c := fun h => by
  obtain ⟨-, harr, hgot, -⟩ := (m.canResetExcluded_iff c).mp h
  exact hgot (got_of_arrived hs hc harr)

end Guards

/-! ## Staying in step -/

/-- Garbage-collecting a settled id leaves its soft entries behind, and nothing else. -/
theorem neutral_forget {c : C} {m : PullState C} (hd : m.cfg.dedup) (hs : Safe m)
    (hc : c ∈ m.got ∨ c ∈ m.rejected) : Neutral c m (m.forget c).1 where
  terminal := by
    have hf := m.forget_frame c
    exact ⟨hf.1.symm, hf.2.1.symm, hf.2.2.2.1.symm, hf.2.2.2.2.1.symm, hf.2.2.2.2.2.1.symm,
      hf.2.2.2.2.2.2.1.symm⟩
  others _ hdc := (sameAt_act (a := .forget c) (Ne.symm hdc)).symm
  settled := hc
  safe := hs
  safe' := hs.act hd (.forget c) trivial

theorem Neutral.admissible {c : C} {m m' : PullState C} (h : Neutral c m m') {a : Action C}
    (ha : m.Admissible a) : m'.Admissible a := by
  cases a with
  | preload d =>
    simp only [Admissible, ← h.terminal.want, ← h.terminal.rejected]
    exact ha
  | _ => trivial

/-- Every call keeps the two in step. -/
theorem Neutral.act {c : C} {m m' : PullState C} (h : Neutral c m m') (hd : m.cfg.dedup)
    {a : Action C} (ha : m.Admissible a) : Neutral c (m.act a) (m'.act a) where
  terminal := h.terminal.act fun p => h.claimable _ p
  others d hdc := by
    by_cases had : a.chunk = d
    · exact (h.others d hdc).act (fun p => h.claimable d p) had
    · exact (sameAt_act had).trans ((h.others d hdc).trans (sameAt_act had).symm)
  settled := h.settled.imp (got_act m a c) (rejected_act m a c)
  safe := h.safe.act hd a ha
  safe' := h.safe'.act (by rw [← h.terminal.cfg]; exact hd) a (h.admissible ha)

/-- The calls whose returned flag tells about soft entries of `c`: who holds it. -/
def tellsSoft (c : C) : Action C → Bool
  | .observeHolder d _ => decide (d = c)
  | .loseHolder d _ => decide (d = c)
  | _ => false

/-- Every other call returns the same. -/
theorem Neutral.result {c : C} {m m' : PullState C} (h : Neutral c m m') {a : Action C}
    (ha : tellsSoft c a = false) : m.result a = m'.result a := by
  by_cases hac : a.chunk = c
  · have hleft : ∀ m : PullState C, (c ∈ m.got ∨ c ∈ m.rejected) →
        (m.got.contains c || m.rejected.contains c) = true := fun m hm => by simpa using hm
    have hset := hleft m h.settled
    have hset' := hleft m' h.symm.settled
    cases a <;> dsimp only [Action.chunk] at hac <;> subst hac <;> dsimp only [PullState.result]
    case preload =>
      simp only [PullState.preload, h.terminal.got]
      split_ifs <;> rfl
    case observeHolder => simp [tellsSoft] at ha
    case loseHolder => simp [tellsSoft] at ha
    case arriveHist => simp only [PullState.arriveHist, hset, hset', if_true]
    case arriveLive => simp only [PullState.arriveLive, hset, hset', Bool.true_or, if_true]
    case want c p =>
      simp only [PullState.wantFrom, h.claimable c p]
      split_ifs <;> rfl
    case deliver =>
      simp only [PullState.deliver, h.terminal.want]
      split_ifs <;> rfl
    case stall =>
      simp only [PullState.stall, h.terminal.want, h.terminal.cfg]
      split_ifs <;> rfl
    case reject =>
      simp only [PullState.reject, h.terminal.got, h.terminal.rejected]
      split_ifs
      rfl
    case resetExcluded =>
      rw [PullState.resetExcluded, PullState.resetExcluded,
        Bool.eq_false_iff.mpr (not_canReset_of_settled h.safe h.settled),
        Bool.eq_false_iff.mpr (not_canReset_of_settled h.safe' h.symm.settled)]
      rfl
    case forget =>
      simp only [PullState.forget, h.terminal.got, h.terminal.rejected]
      split_ifs <;> rfl
  · exact (h.others _ hac).result fun p => h.claimable _ p

/-! ## The queries -/

/-- Listing the wants skips the ids `P` excludes if they have none. -/
theorem enabledWants_filter (m : PullState C) (P : C → Bool)
    (h : ∀ c ∈ m.arrived, P c = false → ∀ p, ¬ m.claimable c p) :
    m.enabledWants = (m.arrived.toList.filter P).flatMap fun c =>
      if m.got.contains c then []
      else match m.holders[c]? with
        | none => []
        | some hs => (hs.toList.filter fun p => m.claimable c p).map fun p => (c, p) := by
  rw [enabledWants]
  generalize hl : m.arrived.toList = l
  have hmem : ∀ c ∈ l, c ∈ m.arrived := fun c hc => ExtTreeSet.mem_toList.mp (hl ▸ hc)
  clear hl
  induction l with
  | nil => rfl
  | cons c l ih =>
    have ih := ih fun d hd => hmem d (List.mem_cons_of_mem c hd)
    cases hP : P c with
    | true =>
      rw [List.filter_cons_of_pos hP, List.flatMap_cons, List.flatMap_cons]
      exact congrArg (_ ++ ·) ih
    | false =>
      rw [List.filter_cons_of_neg (by simp [hP]), List.flatMap_cons, ih]
      have hnone := h c (hmem c (by simp)) hP
      split
      · rfl
      · split
        · rfl
        · rw [List.filter_eq_nil_iff.mpr fun p _ => hnone p]
          rfl

theorem Neutral.enabledWants {c : C} {m m' : PullState C} (h : Neutral c m m') :
    m.enabledWants = m'.enabledWants := by
  have hskip : ∀ m : PullState C, Safe m → (c ∈ m.got ∨ c ∈ m.rejected) →
      ∀ d ∈ m.arrived, decide (d ≠ c) = false → ∀ p, ¬ m.claimable d p := by
    intro m hs hc d _ hd p
    obtain rfl : d = c := by simpa using hd
    exact not_claimable_of_settled hs hc p
  rw [enabledWants_filter m _ (hskip m h.safe h.settled),
    enabledWants_filter m' _ (hskip m' h.safe' h.symm.settled)]
  have hlist : (m.arrived.toList.filter fun d => decide (d ≠ c))
      = m'.arrived.toList.filter fun d => decide (d ≠ c) := filter_toList_congr fun d hd => by
    rw [← ExtTreeSet.contains_iff_mem, ← ExtTreeSet.contains_iff_mem,
      (h.others d (by simpa using hd)).arrived]
  rw [hlist]
  refine List.flatMap_congr fun d hd => ?_
  have hs := h.others d (by simpa using (List.mem_filter.mp hd).2)
  simp only [hs.got, hs.holders, h.claimable]

/-- A settled id is not in the deficit. -/
theorem Neutral.deficit {c : C} {m m' : PullState C} (h : Neutral c m m') :
    m.deficit = m'.deficit := by
  rw [PullState.deficit, PullState.deficit, ← h.terminal.got]
  congr 1
  refine filter_toList_congr fun d hd => ?_
  by_cases hdc : d = c
  · subst hdc
    have hno : ∀ m' : PullState C, Safe m' → (d ∈ m'.got ∨ d ∈ m'.rejected) → m'.got = m.got →
        d ∉ m'.arrived := fun m' hs hc hg harr => by
      have := got_of_arrived hs hc harr
      rw [hg] at this
      simp [this] at hd
    exact iff_of_false (hno m h.safe h.settled rfl)
      (hno m' h.safe' h.symm.settled h.terminal.got.symm)
  · rw [← ExtTreeSet.contains_iff_mem, ← ExtTreeSet.contains_iff_mem, (h.others d hdc).arrived]

/-! ## Whole runs -/

/-- What the two agree on at a point of a run. -/
structure Agree (m m' : PullState C) : Prop where
  got : m.got = m'.got
  rejected : m.rejected = m'.rejected
  want : m.want = m'.want
  conflict : m.conflict = m'.conflict
  ndeliv : m.ndeliv = m'.ndeliv
  enabledWants : m.enabledWants = m'.enabledWants
  load : ∀ p, m.load p = m'.load p
  claimsOf : ∀ p, m.claimsOf p = m'.claimsOf p
  deficit : m.deficit = m'.deficit

theorem Neutral.agree {c : C} {m m' : PullState C} (h : Neutral c m m') : Agree m m' where
  got := h.terminal.got
  rejected := h.terminal.rejected
  want := h.terminal.want
  conflict := h.terminal.conflict
  ndeliv := h.terminal.ndeliv
  enabledWants := h.enabledWants
  load p := by rw [PullState.load, PullState.load, h.terminal.want]
  claimsOf p := by rw [PullState.claimsOf, PullState.claimsOf, h.terminal.want]
  deficit := h.deficit

/-- The two stay in step along a run, and return the same but for who holds `c`. -/
theorem Neutral.run {c : C} {m m' : PullState C} (h : Neutral c m m') (hd : m.cfg.dedup)
    {as : List (Action C)} (has : m.Admits as) : Neutral c (m.acts as) (m'.acts as)
      ∧ ((m.results as).filter fun e => !tellsSoft c e.1)
        = (m'.results as).filter fun e => !tellsSoft c e.1 := by
  induction as generalizing m m' with
  | nil => exact ⟨h, rfl⟩
  | cons a as ih =>
    obtain ⟨ih₁, ih₂⟩ := ih (h.act hd has.1) (by rw [act_cfg]; exact hd) has.2
    refine ⟨ih₁, ?_⟩
    rw [results, results, List.filter_cons, List.filter_cons]
    cases ha : tellsSoft c a with
    | true => simpa [ha] using ih₂
    | false => simp only [Bool.not_false, if_true, h.result ha, ih₂]

/-- Garbage-collecting a settled id of a reachable machine changes nothing that the machine does
from then on: after every admissible list of further calls the stored, rejected and leased ids, the
tripwires, the enabled wants, the loads and the deficit are the same, and every call has returned
the same but for what the two that tell who holds `c` say of `c`. -/
theorem forget_neutral {cfg : Config} (hd : cfg.dedup) {m : PullState C} (hm : Reachable cfg m) {c : C}
    (hc : c ∈ m.got ∨ c ∈ m.rejected) {as : List (Action C)} (has : m.Admits as) :
    Agree (m.acts as) ((m.forget c).1.acts as)
      ∧ ((m.results as).filter fun e => !tellsSoft c e.1)
        = ((m.forget c).1.results as).filter fun e => !tellsSoft c e.1 := by
  have hcfg : m.cfg.dedup := by rw [hm.cfg_eq]; exact hd
  have h := (neutral_forget hcfg (hm.safe hd) hc).run hcfg has
  exact ⟨h.1.agree, h.2⟩

/-- An id that two peers held, that arrived with a priority, and for which one of them was barred
before the other delivered it, is collected; then it is announced again, a third peer holds it, and
another id is fetched from the peer that was barred. -/
theorem forget_neutral_fetched :
    let m : PullState ℕ := (new Config.production).acts [.observeHolder 7 1, .observeHolder 7 2,
      .setPrio 7 3, .arriveHist 7, .want 7 1, .stall 7 1, .want 7 2, .deliver 7 2]
    let as : List (Action ℕ) := [.observeHolder 7 3, .arriveLive 7, .want 7 1, .observeHolder 8 1,
      .arriveHist 8, .want 8 1, .deliver 8 1]
    m.Barred 7 1 ∧ m.Held 7 2 ∧ 7 ∈ m.arrived ∧ ¬ (m.forget 7).1.Barred 7 1
      ∧ ¬ (m.forget 7).1.Held 7 2 ∧ 7 ∉ (m.forget 7).1.arrived ∧ 8 ∈ (m.acts as).got
      ∧ Agree (m.acts as) ((m.forget 7).1.acts as) := by
  intro m as
  have hm : Reachable Config.production m := .acts .refl _ (by simp [Admits, Admissible])
  have hgot : 7 ∈ m.got := by decide +kernel
  have has : m.Admits as := by simp [as, Admits, Admissible]
  have hneutral := forget_neutral (show Config.production.dedup from rfl) hm (.inl hgot) has
  refine ⟨?_, ?_, ?_, ?_, ?_, ?_, ?_, hneutral.1⟩
  all_goals decide +kernel

end Melissi.Machine.PullState
