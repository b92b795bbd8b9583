import Melissi.Machine.Parity
import Melissi.Machine.PullSyncerE
import Melissi.Machine.Sum

/-!
# The explored machine and the design model

A world is read as a state of the model: the maps of sets become functions, the holders are
transposed. The model leaves out what the machine keeps of the ids outside the scenario, of the
post-cursor arrivals and of the entries held before sync; in a reachable world all of it is
determined by what the model has.
-/

namespace Melissi.Machine.Explore

open Melissi.Common Melissi.Machine.PullState Melissi.PullSyncerE
open Std (ExtTreeMap ExtTreeSet)

variable {sc : Scenario} {w w' : World} {c d : Cid} {p q : PeerId}

/-! ## The reading -/

/-- The last value a list of settings gives a key. -/
def lastOf {V : Type} (l : List (Cid × V)) (c : Cid) : Option V := l.reverse.lookup c

/-- The constants of a scenario. -/
def constants (sc : Scenario) : Constants Cid PeerId where
  Chunks := {c | c ∈ sc.chunks}
  Peers := {p | p ∈ sc.peers}
  Holds p := {c | c ∈ sc.chunks ∧ ∃ h ∈ sc.holds, c ∈ h.2 ∧ h.1 = p}
  Byzantine := {p | p ∈ sc.byzantine}
  Dedup := sc.cfg.dedup
  Failover := sc.cfg.failover
  Exclude := sc.cfg.exclude
  SingleSource := sc.cfg.singleSource
  Assign c := (lastOf sc.assign c).getD 0
  ResetOnExhaust := sc.cfg.resetOnExhaust
  Priority := sc.cfg.priority
  Prio c := ((lastOf sc.prio c).getD 0).toNat
  EnableLive := sc.cfg.enableLive
  LiveChunks := {c | c ∈ sc.live}
  TimeoutBudget := sc.timeoutBudget
  ChurnBudget := sc.churnBudget

/-- The variables of a world. -/
def vars (sc : Scenario) (w : World) : State Cid PeerId where
  got := {c | c ∈ w.m.got}
  want c := {p | w.m.Leased c p}
  failed c := {p | w.m.Barred c p}
  arrived := {c | c ∈ w.m.arrived}
  conflict := w.m.conflict
  holds p := {c | c ∈ sc.chunks ∧ w.m.Held c p}
  tmo := w.tmo
  chn := w.chn
  ndeliv := w.m.ndeliv

/-- The model's name of an action: a stall is spurious when the peer is honest. -/
def label (sc : Scenario) : Act → Label Cid PeerId
  | .want c p => .want c p
  | .deliver c p => .deliver c p
  | .stall c p => if sc.honest p then .spuriousTimeout c p else .byzStall c p
  | .lose c p => .lose c p
  | .gain c p => .gain c p
  | .new c => .newChunk c
  | .reset c => .resetExcluded c

/-- The action passes its assertion, and the budget it spends is there. -/
def Applies (sc : Scenario) (w : World) (a : Act) : Prop :=
  w.m.result a.call = some true ∧
    match a with
    | .stall _ p => sc.honest p → 0 < w.tmo
    | .lose _ _ | .gain _ _ => 0 < w.chn
    | _ => True

/-- A scenario of the model: live chunks among its chunks, holders among its peers, a source for
every chunk. -/
structure Scenario.Wellformed (sc : Scenario) : Prop where
  live_sub : ∀ c ∈ sc.live, c ∈ sc.chunks
  holders : ∀ h ∈ sc.holds, h.1 ∈ sc.peers
  assigned : ∀ c ∈ sc.chunks, ∃ e ∈ sc.assign, e.1 = c

/-! ## The invariant -/

/-- What the model does not keep, in terms of what it keeps. -/
structure Determined (sc : Scenario) (m : PullState Cid) : Prop where
  cfg : m.cfg = sc.cfg
  normal : Normalised m
  prio : ∀ c, m.prio[c]? = lastOf sc.prio c
  assign : ∀ c, m.assign[c]? = lastOf sc.assign c
  live : ∀ c, c ∈ m.live ↔ c ∈ m.arrived ∧ c ∈ sc.live
  unrejected : ∀ c, c ∉ m.rejected
  npre : m.npre = 0
  arrived_sub : ∀ c ∈ m.arrived, c ∈ sc.chunks
  got_sub : ∀ c ∈ m.got, c ∈ m.arrived
  held_peer : ∀ c p, m.Held c p → p ∈ sc.peers
  leased_held : ∀ c p, m.Leased c p → c ∈ m.arrived ∧ m.Held c p
  foreign : ∀ c p, c ∉ sc.chunks → (m.Held c p ↔ ∃ h ∈ sc.holds, c ∈ h.2 ∧ h.1 = p)

section Init

theorem getElem?_foldl_insert {V : Type} (l : List (Cid × V)) (m : BTreeMap Cid V) (c : Cid) :
    (l.foldl (fun m e => m.insert e.1 e.2) m)[c]? = (lastOf l c).or m[c]? := by
  induction l generalizing m with
  | nil => rfl
  | cons e l ih =>
    rw [List.foldl_cons, ih, lastOf, lastOf, List.reverse_cons, List.lookup_append]
    cases (l.reverse.lookup c) with
    | some v => rfl
    | none =>
      rw [ExtTreeMap.getElem?_insert]
      by_cases h : e.1 = c
      · subst h
        simp [List.lookup]
      · have h' : (c == e.1) = false := beq_eq_false_iff_ne.mpr (Ne.symm h)
        simp [List.lookup, h, h']

/-- A machine that nothing was asked of yet. -/
structure Blank (sc : Scenario) (m : PullState Cid) : Prop where
  cfg : m.cfg = sc.cfg
  normal : Normalised m
  ungot : ∀ c, c ∉ m.got
  unrejected : ∀ c, c ∉ m.rejected
  unleased : ∀ c p, ¬ m.Leased c p
  unbarred : ∀ c p, ¬ m.Barred c p
  unlive : ∀ c, c ∉ m.live
  noConflict : m.conflict = false
  ndeliv : m.ndeliv = 0
  npre : m.npre = 0

theorem Blank.act {m : PullState Cid} (h : Blank sc m) {a : Action Cid}
    (ha : match a with
      | .setPrio _ _ | .setAssign _ _ | .observeHolder _ _ | .arriveHist _ => True
      | _ => False) : Blank sc (m.act a) := by
  have hcfg : (m.act a).cfg = sc.cfg := (act_cfg m a).trans h.cfg
  have hnormal := h.normal.act a
  obtain ⟨-, -, hg, hr, hl, hb, hv, hc, hd, hn⟩ := h
  cases a <;> first | exact ha.elim | skip
  all_goals
    refine ⟨hcfg, hnormal, ?_, ?_, ?_, ?_, ?_, ?_, ?_, ?_⟩ <;> simp only [PullState.act, setPrio_frame,
      setAssign_frame, observeHolder_frame, arriveHist_frame] <;> assumption

theorem blank_initMachine (sc : Scenario) : Blank sc (initMachine sc) := by
  have hnew : Blank sc (PullState.new sc.cfg) :=
    ⟨rfl, ⟨Normal.empty, Normal.empty, Normal.empty⟩, by simp [PullState.new],
      by simp [PullState.new], by simp [PullState.new, Leased], by simp [PullState.new, Barred],
      by simp [PullState.new], rfl, rfl, rfl⟩
  refine foldl_invariant (I := Blank sc) _ _ (fun m hm c _ => ?_) <|
    foldl_invariant _ _ (fun m hm e _ => hm.act (a := .setAssign e.1 e.2) trivial) <|
    foldl_invariant _ _ (fun m hm e _ => hm.act (a := .setPrio e.1 e.2) trivial) <|
    foldl_invariant _ _ (fun m hm h _ => foldl_invariant _ _
      (fun m hm c _ => hm.act (a := .observeHolder c h.1) trivial) hm) hnew
  split
  · exact hm
  · exact hm.act (a := .arriveHist c) trivial

/-- A list of settings in the machine is one in its map. -/
theorem foldl_setPrio (l : List (Cid × UInt8)) (m : PullState Cid) :
    (l.foldl (fun m e => m.setPrio e.1 e.2) m).prio = l.foldl (fun b e => b.insert e.1 e.2) m.prio :=
  (List.foldl_hom PullState.prio fun _ _ => rfl).symm

theorem foldl_setAssign (l : List (Cid × PeerId)) (m : PullState Cid) :
    (l.foldl (fun m e => m.setAssign e.1 e.2) m).assign
      = l.foldl (fun b e => b.insert e.1 e.2) m.assign :=
  (List.foldl_hom PullState.assign fun _ _ => rfl).symm

theorem prio_initMachine (sc : Scenario) (c : Cid) :
    (initMachine sc).prio[c]? = lastOf sc.prio c := by
  rw [initMachine, foldl_frame PullState.prio, foldl_frame PullState.prio,
    foldl_setPrio, getElem?_foldl_insert, foldl_frame PullState.prio]
  · simp [PullState.new]
  · exact fun m h _ => foldl_frame PullState.prio (fun m c => (m.observeHolder c h.1).1) _
      (fun _ _ _ => rfl) m
  · simp
  · intro m d _
    split <;> simp

theorem assign_initMachine (sc : Scenario) (c : Cid) :
    (initMachine sc).assign[c]? = lastOf sc.assign c := by
  rw [initMachine, foldl_frame PullState.assign,
    foldl_setAssign, getElem?_foldl_insert, foldl_frame PullState.assign,
    foldl_frame PullState.assign]
  · simp [PullState.new]
  · exact fun m h _ => foldl_frame PullState.assign (fun m c => (m.observeHolder c h.1).1) _
      (fun _ _ _ => rfl) m
  · exact fun _ _ _ => rfl
  · intro m d _
    simp only [PullState.arriveHist]
    split
    · rfl
    · split <;> rfl

theorem determined_initMachine (h : sc.Wellformed) : Determined sc (initMachine sc) := by
  have hb := blank_initMachine sc
  exact {
    cfg := hb.cfg
    normal := hb.normal
    prio := prio_initMachine sc
    assign := assign_initMachine sc
    live := fun c => iff_of_false (hb.unlive c) fun ⟨harr, hl⟩ =>
      ((mem_arrived_initMachine sc).mp harr).2 hl
    unrejected := hb.unrejected
    npre := hb.npre
    arrived_sub := fun c hc => ((mem_arrived_initMachine sc).mp hc).1
    got_sub := fun c hc => absurd hc (hb.ungot c)
    held_peer := fun c p hp => by
      obtain ⟨e, he, -, rfl⟩ := (held_initMachine sc).mp hp
      exact h.holders e he
    leased_held := fun c p hp => absurd hp (hb.unleased c p)
    foreign := fun c p _ => held_initMachine sc }

end Init

/-- No action of the environment sets a priority or a source. -/
theorem prio_assign_apply (w : World) (a : Act) :
    (apply sc w a).m.prio = w.m.prio ∧ (apply sc w a).m.assign = w.m.assign := by
  cases a with
  | lose c p => exact ⟨rfl, rfl⟩
  | gain c p => exact ⟨rfl, rfl⟩
  | _ =>
    simp only [apply, wantFrom, deliver, stall, arriveLive, resetExcluded]
    split <;> exact ⟨rfl, rfl⟩

/-- Every enabled action keeps it. -/
theorem Determined.step (h : sc.Wellformed) (hd : Determined sc w.m) {a : Act}
    (ha : Guard sc w a) : Determined sc (apply sc w a).m := by
  have hcfg : (apply sc w a).m.cfg = sc.cfg := by rw [apply_m, act_cfg, hd.cfg]
  have hnormal : Normalised (apply sc w a).m := by
    rw [apply_m]
    exact hd.normal.act _
  have hprio : ∀ c, (apply sc w a).m.prio[c]? = lastOf sc.prio c := by
    rw [(prio_assign_apply w a).1]
    exact hd.prio
  have hassign : ∀ c, (apply sc w a).m.assign[c]? = lastOf sc.assign c := by
    rw [(prio_assign_apply w a).2]
    exact hd.assign
  obtain ⟨-, -, -, -, hlive, hrej, hnpre, harr, hgot, hpeer, hlease, hfor⟩ := hd
  cases a <;> refine ⟨hcfg, hnormal, hprio, hassign, ?_, ?_, ?_, ?_, ?_, ?_, ?_, ?_⟩ <;>
    simp only [apply, wantFrom_frame, deliver_frame, stall_frame, loseHolder_frame,
      observeHolder_frame, arriveLive_frame, resetExcluded_frame, leased_wantFrom, leased_deliver,
      leased_stall, leased_loseHolder, held_loseHolder, held_observeHolder, mem_got_deliver,
      mem_arrived_arriveLive, mem_live_arriveLive] <;> try assumption
  case want.refine_7 c p =>
    rintro d q (⟨hcl, rfl, rfl⟩ | hl)
    · obtain ⟨hc, hp, -⟩ := (w.m.claimable_iff c p).mp hcl
      exact ⟨hc, hp⟩
    · exact hlease d q hl
  case deliver.refine_5 c p =>
    rintro d (⟨rfl, hl⟩ | hg)
    · exact (hlease c p hl).1
    · exact hgot d hg
  case deliver.refine_7 c p => exact fun d q hl => hlease d q hl.2
  case stall.refine_7 c p => exact fun d q hl => hlease d q hl.2
  case lose.refine_6 c p => exact fun d q hq => hpeer d q hq.2
  case lose.refine_7 c p =>
    exact fun d q hl => ⟨(hlease d q hl.2).1, hl.1, (hlease d q hl.2).2⟩
  case lose.refine_8 c p =>
    intro d q hd
    have hne : c ≠ d := fun he => hd (he ▸ ha.2.1)
    rw [← hfor d q hd]
    exact and_iff_right fun he => hne he.1
  case gain.refine_6 c p =>
    rintro d q (⟨rfl, rfl⟩ | hq)
    · exact ha.2.2.2.1
    · exact hpeer d q hq
  case gain.refine_7 c p => exact fun d q hl => ⟨(hlease d q hl).1, .inr (hlease d q hl).2⟩
  case gain.refine_8 c p =>
    intro d q hd
    have hne : c ≠ d := fun he => hd (he ▸ ha.2.1)
    rw [← hfor d q hd]
    exact or_iff_right fun he => hne he.1
  case new.refine_1 c =>
    obtain ⟨hl, hg, hr, hn⟩ := ha
    intro d
    rw [hlive d]
    constructor
    · rintro (⟨harr, hd⟩ | ⟨rfl, -⟩)
      · exact ⟨.inl harr, hd⟩
      · exact ⟨.inr ⟨rfl, hg, hr⟩, hl⟩
    · rintro ⟨harr | ⟨rfl, -, -⟩, hd⟩
      · exact .inl ⟨harr, hd⟩
      · exact .inr ⟨rfl, hg, hr, hn⟩
  case new.refine_4 c =>
    rintro d (hd | ⟨rfl, -⟩)
    · exact harr d hd
    · exact h.live_sub c ha.1
  case new.refine_5 c => exact fun d hd => .inl (hgot d hd)
  case new.refine_7 c => exact fun d q hl => ⟨.inl (hlease d q hl).1, (hlease d q hl).2⟩

theorem Reachable.determined (h : sc.Wellformed) (hr : Reachable sc w) : Determined sc w.m := by
  induction hr with
  | refl => exact determined_initMachine h
  | tail _ hs ih =>
    obtain ⟨a, ha, rfl⟩ := hs
    exact ih.step h ((mem_enabled a).mp ha)

/-! ## The simulation -/

theorem mem_honest (hp : p ∈ sc.peers) : p ∈ (constants sc).Honest ↔ sc.honest p := by
  simp [Constants.Honest, constants, Scenario.honest, hp]

/-- The initial world is the initial state. -/
theorem vars_init (sc : Scenario) : vars sc (init sc) = Init (constants sc) := by
  have hb := blank_initMachine sc
  ext c p
  · simpa [vars, Init, init] using hb.ungot c
  · simpa [vars, Init, init] using hb.unleased c p
  · simpa [vars, Init, init] using hb.unbarred c p
  · simpa [vars, Init, init, Constants.HistChunks, constants] using mem_arrived_initMachine sc
  · simp [vars, Init, init, hb.noConflict]
  · simpa [vars, Init, init, constants] using fun _ => held_initMachine sc
  · rfl
  · rfl
  · exact hb.ndeliv

section Guards

variable (hd : Determined sc w.m)
include hd

theorem want_eq_empty : (vars sc w).want c = ∅ ↔ c ∉ w.m.want := by
  rw [hd.normal.want.mem_iff, Set.eq_empty_iff_forall_notMem]
  push Not
  rfl

theorem Determined.prio_eq : (constants sc).Prio c = (w.m.prioOf c).toNat := by
  rw [PullState.prioOf, hd.prio]
  rfl

theorem Determined.assign_iff (h : sc.Wellformed) (hc : c ∈ sc.chunks) :
    w.m.assign[c]? = some p ↔ p = (constants sc).Assign c := by
  obtain ⟨e, he, rfl⟩ := h.assigned c hc
  obtain ⟨v, hv⟩ : ∃ v, lastOf sc.assign e.1 = some v := by
    rw [← Option.isSome_iff_exists, Option.isSome_iff_ne_none, lastOf, ne_eq, List.lookup_eq_none_iff]
    exact fun hno => by simpa using hno e (List.mem_reverse.mpr he)
  rw [hd.assign, hv, constants]
  simp [hv, eq_comm]

/-- The machine's order holds nothing back that the model's lets through. -/
theorem Determined.prioOk_of (hok : PrioOK (constants sc) (vars sc w) c) : w.m.prioOk c := by
  refine (w.m.prioOk_iff c).mpr fun hp d harr => ?_
  have hall := hok.resolve_left (not_not_intro (show sc.cfg.priority from hd.cfg ▸ hp)) d harr
  rw [hd.prio_eq, hd.prio_eq] at hall
  by_cases hle : w.m.prioOf d ≤ w.m.prioOf c
  · exact .inl hle
  · refine .inr (.inr ((w.m.addressed_iff d).mpr ?_))
    refine (hall (UInt8.lt_iff_toNat_lt.mp (not_le.mp hle))).imp id fun hne => ?_
    exact not_not.mp fun hno => hne ((want_eq_empty hd).mpr hno)

/-- What the model lets be claimed is claimable. -/
theorem Determined.claimable_of (h : sc.Wellformed)
    (hcl : Claimable (constants sc) (vars sc w) c p) : w.m.claimable c p := by
  obtain ⟨harr, hheld, hgot, hwant, hbar, hdedup, hsingle, hgate, hok⟩ := hcl
  refine (w.m.claimable_iff c p).mpr ⟨harr, hheld.2, hgot, hwant, hbar, fun he => ?_, fun he => ?_,
    fun hl => ?_, hd.prioOk_of hok⟩
  · exact (want_eq_empty hd).mp (hdedup (show sc.cfg.dedup from hd.cfg ▸ he))
  · exact (hd.assign_iff h hheld.1).mpr (hsingle (show sc.cfg.singleSource from hd.cfg ▸ he))
  · rw [hd.cfg]
    exact hgate ((hd.live c).mp hl).2

/-- Without the order the model lets all that is claimable be claimed. -/
theorem Determined.claimable_vars (h : sc.Wellformed) (hp : sc.cfg.priority = false)
    (hcl : w.m.claimable c p) : Claimable (constants sc) (vars sc w) c p := by
  obtain ⟨harr, hheld, hgot, hwant, hbar, hdedup, hsingle, hgate, -⟩ := (w.m.claimable_iff c p).mp hcl
  have hc := hd.arrived_sub c harr
  rw [hd.cfg] at hdedup hsingle hgate
  exact {
    arrived := harr
    held := ⟨hc, hheld⟩
    missing := hgot
    unclaimed := hwant
    unbarred := hbar
    dedup := fun he => (want_eq_empty hd).mpr (hdedup he)
    single := fun he => (hd.assign_iff h hc).mp (hsingle he)
    gate := fun hl => hgate ((hd.live c).mpr ⟨harr, hl⟩)
    prio := .inl (by simp [constants, hp]) }

end Guards

/-! ## The simulation -/

/-- The variables after an action, field by field. -/
theorem vars_ext {s : State Cid PeerId} (w : World)
    (got : ∀ c, c ∈ w.m.got ↔ c ∈ s.got) (want : ∀ c p, w.m.Leased c p ↔ p ∈ s.want c)
    (failed : ∀ c p, w.m.Barred c p ↔ p ∈ s.failed c) (arrived : ∀ c, c ∈ w.m.arrived ↔ c ∈ s.arrived)
    (conflict : w.m.conflict ↔ s.conflict)
    (holds : ∀ c p, c ∈ sc.chunks ∧ w.m.Held c p ↔ c ∈ s.holds p)
    (tmo : w.tmo = s.tmo) (chn : w.chn = s.chn) (ndeliv : w.m.ndeliv = s.ndeliv) : vars sc w = s := by
  ext c p
  · exact got c
  · exact want c p
  · exact failed c p
  · exact arrived c
  · exact conflict
  · exact holds p c
  · exact tmo
  · exact chn
  · exact ndeliv

section Forward

variable (hd : Determined sc w.m)
include hd

theorem Determined.forward_want (h : sc.Wellformed) (hp : sc.cfg.priority = false)
    (ha : w.m.claimable c p) :
    Want (constants sc) c p (vars sc w) (vars sc (apply sc w (.want c p))) := by
  refine ⟨hd.claimable_vars h hp ha, ?_⟩
  apply vars_ext <;> simp only [apply, wantFrom_frame]
  case want =>
    intro d q
    rw [leased_wantFrom, mem_except_union]
    exact or_congr_left (and_iff_right ha)
  all_goals simp [vars]

theorem Determined.forward_deliver (ha : Guard sc w (.deliver c p)) :
    Deliver (constants sc) c p (vars sc w) (vars sc (apply sc w (.deliver c p))) := by
  obtain ⟨hl, hh⟩ := ha
  have hpeer := hd.held_peer c p (hd.leased_held c p hl).2
  refine ⟨(mem_honest hpeer).mpr hh, hl, ?_⟩
  have hact := conflict_act w.m (.deliver c p)
  have hcount := ndeliv_act w.m (.deliver c p)
  apply vars_ext <;> simp only [apply, deliver_frame]
  case got =>
    intro d
    rw [mem_got_deliver, or_comm]
    exact or_congr_right ((and_iff_left hl).trans eq_comm)
  case want =>
    intro d q
    rw [leased_deliver, mem_except_diff]
    rfl
  case conflict => exact hact.trans (or_congr_right (and_iff_right hl))
  case ndeliv =>
    rw [delivers, show setContains w.m.want c p = true from hl] at hcount
    exact hcount
  all_goals simp [vars]

/-- A stall releases the claim, and one of an honest peer is paid for. -/
theorem Determined.vars_stall (hl : w.m.Leased c p) (hf : w.m.cfg.failover) :
    vars sc (apply sc w (.stall c p)) = { release (constants sc) c p (vars sc w) with
      tmo := if sc.honest p then w.tmo - 1 else w.tmo } := by
  apply vars_ext <;> simp only [apply, stall_frame]
  case want =>
    intro d q
    simp only [leased_stall, release, mem_except_diff, hf, true_and]
    rfl
  case failed =>
    intro d q
    rw [barred_stall, hd.cfg, release]
    by_cases he : (constants sc).Exclude
    · rw [if_pos he, mem_except_union]
      exact or_congr_left (and_iff_right ⟨hd.cfg ▸ hf, he, hl⟩)
    · rw [if_neg he]
      exact or_iff_right fun h => he h.1.2.1
  all_goals simp [vars, release]

theorem Determined.forward_stall (ha : Guard sc w (.stall c p)) :
    PullSyncerE.Action (constants sc) (label sc (.stall c p)) (vars sc w)
      (vars sc (apply sc w (.stall c p))) := by
  obtain ⟨hl, hf, htmo⟩ := ha
  obtain ⟨harr, hheld⟩ := hd.leased_held c p hl
  have hpeer := hd.held_peer c p hheld
  have hfail : sc.cfg.failover := hd.cfg ▸ hf
  rw [hd.vars_stall hl hf, label]
  split
  · next hh =>
    exact ⟨hd.arrived_sub c harr, hpeer, htmo hh, (mem_honest hpeer).mpr hh, hl, hfail, rfl⟩
  · next hh =>
    have hbyz : p ∈ sc.byzantine := by simpa [Scenario.honest] using hh
    exact ⟨hd.arrived_sub c harr, hpeer, hbyz, hl, hfail, rfl⟩

theorem Determined.forward_lose (ha : Guard sc w (.lose c p)) :
    Lose (constants sc) c p (vars sc w) (vars sc (apply sc w (.lose c p))) := by
  obtain ⟨hchn, hc, hg, hheld, q, hne, hq, hh⟩ := ha
  refine ⟨hchn, hg, ⟨hc, hheld⟩, ⟨q, ⟨(mem_honest (hd.held_peer c q hq)).mpr hh, hne⟩, hc, hq⟩, ?_⟩
  apply vars_ext <;> simp only [apply, loseHolder_frame]
  case want =>
    intro d q
    rw [leased_loseHolder, mem_except_diff]
    rfl
  case holds =>
    intro d q
    rw [held_loseHolder, mem_except_diff, and_comm (a := p = q), and_left_comm]
    rfl
  all_goals simp [vars]

theorem Determined.forward_reset (ha : Guard sc w (.reset c)) :
    ResetExcluded (constants sc) c (vars sc w) (vars sc (apply sc w (.reset c))) := by
  obtain ⟨he, harr, hg, hw, ⟨p, hb⟩, hall⟩ := (w.m.canResetExcluded_iff c).mp ha.2
  rw [hd.cfg] at he
  refine ⟨he, harr, hg, (want_eq_empty hd).mpr hw, ?_, fun p _ hp => hall p hp.2, ?_⟩
  · exact (Set.nonempty_of_mem (show p ∈ (vars sc w).failed c from hb)).ne_empty
  · apply vars_ext <;> simp only [apply, resetExcluded_frame]
    case failed =>
      intro d q
      rw [barred_resetExcluded, mem_except_empty]
      exact and_congr_left fun _ => not_congr (and_iff_left ha.2)
    all_goals simp [vars]

end Forward

theorem forward_gain (ha : Guard sc w (.gain c p)) :
    Gain c p (vars sc w) (vars sc (apply sc w (.gain c p))) := by
  obtain ⟨hchn, hc, hg, -, hheld⟩ := ha
  refine ⟨hchn, hg, fun hn => hheld hn.2, ?_⟩
  apply vars_ext <;> simp only [apply, observeHolder_frame]
  case holds =>
    intro d q
    rw [held_observeHolder, mem_except_union, and_or_left, and_comm (a := p = q)]
    refine or_congr_left (and_iff_right_of_imp ?_)
    rintro ⟨rfl, -⟩
    exact hc
  all_goals simp [vars]

theorem forward_new (ha : Guard sc w (.new c)) :
    NewChunk (constants sc) c (vars sc w) (vars sc (apply sc w (.new c))) := by
  obtain ⟨hl, hg, hr, hn⟩ := ha
  refine ⟨hl, hn, ?_⟩
  apply vars_ext <;> simp only [apply, arriveLive_frame]
  case arrived =>
    intro d
    rw [mem_arrived_arriveLive]
    refine or_congr_right ⟨fun hd => hd.1.symm, ?_⟩
    rintro rfl
    exact ⟨rfl, hg, hr⟩
  all_goals simp [vars]

/-- An enabled action is an action of the model of its name, with the world it leads to. -/
theorem Determined.forward (h : sc.Wellformed) (hp : sc.cfg.priority = false)
    (hd : Determined sc w.m) {a : Act} (ha : Guard sc w a) :
    PullSyncerE.Action (constants sc) (label sc a) (vars sc w) (vars sc (apply sc w a)) := by
  cases a with
  | want c p =>
    have hcl := hd.claimable_vars h hp ha
    exact ⟨hcl.held.1, hd.held_peer c p hcl.held.2, hd.forward_want h hp ha⟩
  | deliver c p =>
    obtain ⟨harr, hheld⟩ := hd.leased_held c p ha.1
    exact ⟨hd.arrived_sub c harr, hd.held_peer c p hheld, hd.forward_deliver ha⟩
  | stall c p => exact hd.forward_stall ha
  | lose c p =>
    obtain ⟨-, hc, -, hheld, -⟩ := id ha
    exact ⟨hc, hd.held_peer c p hheld, hd.forward_lose ha⟩
  | gain c p =>
    obtain ⟨-, hc, -, hpeer, -⟩ := id ha
    exact ⟨hc, hpeer, forward_gain ha⟩
  | new c => exact ⟨h.live_sub c ha.1, forward_new ha⟩
  | reset c => exact ⟨ha.1, hd.forward_reset ha⟩

/-- An enabled action of the model is the name of an enabled action. -/
theorem Determined.backward (h : sc.Wellformed) (hd : Determined sc w.m) {l : Label Cid PeerId}
    {s' : State Cid PeerId} (hl : PullSyncerE.Action (constants sc) l (vars sc w) s') :
    ∃ a, Guard sc w a ∧ label sc a = l := by
  have hhonest : ∀ {p}, p ∈ (constants sc).Honest → sc.honest p := fun hp =>
    (mem_honest hp.1).mp hp
  cases l with
  | want c p =>
    obtain ⟨-, -, hcl, -⟩ := hl
    exact ⟨.want c p, hd.claimable_of h hcl, rfl⟩
  | deliver c p =>
    obtain ⟨-, -, hh, hw, -⟩ := hl
    exact ⟨.deliver c p, ⟨hw, hhonest hh⟩, rfl⟩
  | byzStall c p =>
    obtain ⟨-, -, hbyz, hw, hf, -⟩ := hl
    have hh : sc.honest p = false := by
      simpa [Scenario.honest] using (show p ∈ sc.byzantine from hbyz)
    refine ⟨.stall c p, ⟨hw, by rw [hd.cfg]; exact hf, fun hp => ?_⟩, by simp [label, hh]⟩
    rw [hh] at hp
    cases hp
  | spuriousTimeout c p =>
    obtain ⟨-, -, htmo, hh, hw, hf, -⟩ := hl
    exact ⟨.stall c p, ⟨hw, by rw [hd.cfg]; exact hf, fun _ => htmo⟩, by simp [label, hhonest hh]⟩
  | lose c p =>
    obtain ⟨hc, -, hchn, hg, hheld, ⟨q, ⟨hh, hne⟩, hq⟩, -⟩ := hl
    exact ⟨.lose c p, ⟨hchn, hc, hg, hheld.2, q, hne, hq.2, hhonest hh⟩, rfl⟩
  | gain c p =>
    obtain ⟨hc, hp, hchn, hg, hheld, -⟩ := hl
    exact ⟨.gain c p, ⟨hchn, hc, hg, hp, fun hn => hheld ⟨hc, hn⟩⟩, rfl⟩
  | resetExcluded c =>
    obtain ⟨hc, he, harr, hg, hw, hf, hall, -⟩ := hl
    obtain ⟨p, hp⟩ := Set.nonempty_iff_ne_empty.mpr hf
    refine ⟨.reset c, ⟨hc, (w.m.canResetExcluded_iff c).mpr ⟨by rw [hd.cfg]; exact he, harr, hg,
      (want_eq_empty hd).mp hw, ⟨p, hp⟩, fun q hq => ?_⟩⟩, rfl⟩
    exact hall q (hd.held_peer c q hq) ⟨hc, hq⟩
  | newChunk c =>
    obtain ⟨-, hlive, hn, -⟩ := hl
    exact ⟨.new c, ⟨hlive, fun hg => hn (hd.got_sub c hg), hd.unrejected c, hn⟩, rfl⟩

/-- An action of the model leads to one state. -/
theorem action_unique {K : Constants Cid PeerId} {l : Label Cid PeerId} {s s₁ s₂ : State Cid PeerId}
    (h₁ : PullSyncerE.Action K l s s₁) (h₂ : PullSyncerE.Action K l s s₂) : s₁ = s₂ := by
  cases l with
  | want => exact h₁.2.2.2.trans h₂.2.2.2.symm
  | deliver => exact h₁.2.2.2.2.trans h₂.2.2.2.2.symm
  | byzStall => exact h₁.2.2.2.2.2.trans h₂.2.2.2.2.2.symm
  | spuriousTimeout => exact h₁.2.2.2.2.2.2.trans h₂.2.2.2.2.2.2.symm
  | lose => exact h₁.2.2.2.2.2.2.trans h₂.2.2.2.2.2.2.symm
  | gain => exact h₁.2.2.2.2.2.trans h₂.2.2.2.2.2.symm
  | resetExcluded => exact h₁.2.2.2.2.2.2.2.trans h₂.2.2.2.2.2.2.2.symm
  | newChunk => exact h₁.2.2.2.trans h₂.2.2.2.symm

/-- Every enabled action passes its assertion. -/
theorem applies_of_guard {a : Act} (ha : Guard sc w a) : Applies sc w a := by
  cases a with
  | want c p =>
    have hcl : w.m.claimable c p = true := ha
    exact ⟨by simp [Act.call, PullState.result, wantFrom, hcl], trivial⟩
  | deliver c p =>
    have hl : setContains w.m.want c p = true := ha.1
    exact ⟨by simp [Act.call, PullState.result, deliver, hl], trivial⟩
  | stall c p =>
    have hl : setContains w.m.want c p = true := ha.1
    exact ⟨by simp [Act.call, PullState.result, stall, hl, ha.2.1], ha.2.2⟩
  | lose c p =>
    have hheld : setContains w.m.holders c p = true := ha.2.2.2.1
    exact ⟨by simp [Act.call, PullState.result, loseHolder, setRemove_snd, hheld], ha.1⟩
  | gain c p =>
    have hheld : setContains w.m.holders c p = false := by simpa [Held] using ha.2.2.2.2
    exact ⟨by simp [Act.call, PullState.result, observeHolder, setInsert_snd, hheld], ha.1⟩
  | new c => exact ⟨by simp [Act.call, PullState.result, arriveLive, ha.2.1, ha.2.2.1, ha.2.2.2], trivial⟩
  | reset c => exact ⟨by simp [Act.call, PullState.result, resetExcluded, ha.2], trivial⟩

/-- Worlds with the same variables are equal. -/
theorem vars_inj (hd : Determined sc w.m) (hd' : Determined sc w'.m) (he : vars sc w = vars sc w') :
    w = w' := by
  have hleased : ∀ c p, w.m.Leased c p ↔ w'.m.Leased c p := fun c p =>
    Set.ext_iff.mp (congrFun (congrArg State.want he) c) p
  have hbarred : ∀ c p, w.m.Barred c p ↔ w'.m.Barred c p := fun c p =>
    Set.ext_iff.mp (congrFun (congrArg State.failed he) c) p
  have hin : ∀ c p, c ∈ sc.chunks ∧ w.m.Held c p ↔ c ∈ sc.chunks ∧ w'.m.Held c p := fun c p =>
    Set.ext_iff.mp (congrFun (congrArg State.holds he) p) c
  have hheld : ∀ c p, w.m.Held c p ↔ w'.m.Held c p := fun c p => by
    by_cases hc : c ∈ sc.chunks
    · simpa only [hc, true_and] using hin c p
    · rw [hd.foreign c p hc, hd'.foreign c p hc]
  have hset : ∀ {s s' : Set Cid}, s = s' → ∀ c, c ∈ s ↔ c ∈ s' := fun h c => by rw [h]
  have harrived : ∀ c, c ∈ w.m.arrived ↔ c ∈ w'.m.arrived := hset (congrArg State.arrived he)
  have hm : w.m = w'.m := PullState.ext_kept hd.normal hd'.normal (hd.cfg.trans hd'.cfg.symm)
    hleased hheld hbarred harrived (fun c => by rw [hd.live, hd'.live, harrived])
    (fun c => iff_of_false (hd.unrejected c) (hd'.unrejected c)) (hset (congrArg State.got he))
    (ExtTreeMap.ext_getElem? fun c => by rw [hd.prio, hd'.prio])
    (ExtTreeMap.ext_getElem? fun c => by rw [hd.assign, hd'.assign])
    (Bool.eq_iff_iff.mpr (iff_of_eq (congrArg State.conflict he))) (congrArg State.ndeliv he)
    (hd.npre.trans hd'.npre.symm)
  have htmo : w.tmo = w'.tmo := congrArg State.tmo he
  have hchn : w.chn = w'.chn := congrArg State.chn he
  obtain ⟨m, tmo, chn⟩ := w
  obtain ⟨m', tmo', chn'⟩ := w'
  simp_all

/-! ## The bisimulation -/

/-- With the order off the reachable worlds and the model step alike: the initial world is the
initial state, every enabled action passes its assertion and is the model's action of its name,
every enabled action of the model is one of these and leads to the same state, and different worlds
are different states. With the order on all that the model lets be claimed is enabled. -/
theorem bisimulation (h : sc.Wellformed) :
    (sc.cfg.priority = false →
      vars sc (init sc) = Init (constants sc)
        ∧ (∀ w, Reachable sc w →
          (∀ a ∈ enabled sc w, Applies sc w a ∧
            PullSyncerE.Action (constants sc) (label sc a) (vars sc w) (vars sc (apply sc w a)))
          ∧ ∀ l s', PullSyncerE.Action (constants sc) l (vars sc w) s' →
            ∃ a ∈ enabled sc w, label sc a = l ∧ vars sc (apply sc w a) = s')
        ∧ ∀ w w', Reachable sc w → Reachable sc w' → vars sc w = vars sc w' → w = w')
      ∧ (sc.cfg.priority →
        ∀ w, Reachable sc w → ∀ c p, Claimable (constants sc) (vars sc w) c p →
          .want c p ∈ enabled sc w) := by
  refine ⟨fun hp => ⟨vars_init sc, fun w hr => ⟨fun a ha => ?_, fun l s' hl => ?_⟩, ?_⟩, ?_⟩
  · have hguard := (mem_enabled a).mp ha
    exact ⟨applies_of_guard hguard, (hr.determined h).forward h hp hguard⟩
  · obtain ⟨a, hguard, rfl⟩ := (hr.determined h).backward h hl
    exact ⟨a, (mem_enabled a).mpr hguard, rfl,
      action_unique ((hr.determined h).forward h hp hguard) hl⟩
  · exact fun w w' hr hr' he => vars_inj (hr.determined h) (hr'.determined h) he
  · exact fun _ w hr c p hcl => (mem_enabled _).mpr ((hr.determined h).claimable_of h hcl)

/-- The composite row with a source for every chunk and the order off: a claim is the model's claim,
and what the model then delivers is enabled. -/
theorem bisimulation_storm :
    let sc := { storm with
      cfg := { Config.production with priority := false }
      assign := [(1, 1), (2, 2), (3, 3), (4, 1)] }
    let w := apply sc (init sc) (.want 1 1)
    vars sc (init sc) = Init (constants sc)
      ∧ PullSyncerE.Action (constants sc) (label sc (.want 1 1)) (Init (constants sc)) (vars sc w)
      ∧ ∃ a ∈ enabled sc w, label sc a = label sc (.deliver 1 1)
        ∧ vars sc (apply sc w a) = vars sc (apply sc w (.deliver 1 1)) := by
  intro sc w
  obtain ⟨hinit, hsteps, -⟩ := (@bisimulation sc ⟨by decide, by decide, by decide⟩).1 rfl
  have hwant : .want 1 1 ∈ enabled sc (init sc) := by decide +kernel
  have hclaim := ((hsteps _ .refl).1 _ hwant).2
  rw [hinit] at hclaim
  have hr : Reachable sc w := .tail .refl ⟨_, hwant, rfl⟩
  have hdeliver : .deliver 1 1 ∈ enabled sc w := by decide +kernel
  exact ⟨hinit, hclaim, (hsteps w hr).2 _ _ ((hsteps w hr).1 _ hdeliver).2⟩

end Melissi.Machine.Explore
