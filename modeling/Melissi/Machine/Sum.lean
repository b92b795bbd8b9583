import Melissi.Common.Keyed
import Melissi.Machine.Safety

/-!
# The machine is a direct sum of per-chunk machines

With the priority guard off no call reads or writes what belongs to another id than its own. So the
part of an id in any state reached is what the calls on that id alone make of it, the tripwire is
latched where one of the parts latches it, and the two counters add up over the parts.
-/

namespace Melissi.Machine

open Melissi.Common
open Std (ExtTreeMap ExtTreeSet)

variable {C : Type} [LinearOrder C]

/-- The id a call names. -/
def Action.chunk : Action C → C
  | preload c => c
  | setPrio c _ => c
  | setAssign c _ => c
  | observeHolder c _ => c
  | loseHolder c _ => c
  | arriveHist c => c
  | arriveLive c => c
  | want c _ => c
  | deliver c _ => c
  | stall c _ => c
  | reject c => c
  | resetExcluded c => c
  | forget c => c

namespace PullState

/-- What a call returns; `set_prio` and `set_assign` return nothing. -/
def result (m : PullState C) : Action C → Option Bool
  | .preload c => some (m.preload c).2
  | .setPrio _ _ => none
  | .setAssign _ _ => none
  | .observeHolder c p => some (m.observeHolder c p).2
  | .loseHolder c p => some (m.loseHolder c p).2
  | .arriveHist c => some (m.arriveHist c).2
  | .arriveLive c => some (m.arriveLive c).2
  | .want c p => some (m.wantFrom c p).2
  | .deliver c p => some (m.deliver c p).2
  | .stall c p => some (m.stall c p).2
  | .reject c => some (m.reject c).2
  | .resetExcluded c => some (m.resetExcluded c).2
  | .forget c => some (m.forget c).2

/-- Two machines agree in the part of `c`. -/
structure SameAt (c : C) (m m' : PullState C) : Prop where
  cfg : m.cfg = m'.cfg
  want : m.want[c]? = m'.want[c]?
  holders : m.holders[c]? = m'.holders[c]?
  excluded : m.excluded[c]? = m'.excluded[c]?
  arrived : m.arrived.contains c = m'.arrived.contains c
  live : m.live.contains c = m'.live.contains c
  rejected : m.rejected.contains c = m'.rejected.contains c
  got : m.got.contains c = m'.got.contains c
  prio : m.prio[c]? = m'.prio[c]?
  assign : m.assign[c]? = m'.assign[c]?

theorem SameAt.refl (c : C) (m : PullState C) : SameAt c m m := by
  constructor <;> rfl

theorem SameAt.symm {c : C} {m m' : PullState C} (h : SameAt c m m') : SameAt c m' m :=
  ⟨h.cfg.symm, h.want.symm, h.holders.symm, h.excluded.symm, h.arrived.symm, h.live.symm,
    h.rejected.symm, h.got.symm, h.prio.symm, h.assign.symm⟩

theorem SameAt.trans {c : C} {m m' m'' : PullState C} (h : SameAt c m m') (h' : SameAt c m' m'') :
    SameAt c m m'' :=
  ⟨h.cfg.trans h'.cfg, h.want.trans h'.want, h.holders.trans h'.holders,
    h.excluded.trans h'.excluded, h.arrived.trans h'.arrived, h.live.trans h'.live,
    h.rejected.trans h'.rejected, h.got.trans h'.got, h.prio.trans h'.prio,
    h.assign.trans h'.assign⟩

/-- Machines that agree in every part and in the tripwires are equal. -/
theorem ext_sameAt {m m' : PullState C} (hcfg : m.cfg = m'.cfg) (h : ∀ c, SameAt c m m')
    (hconf : m.conflict = m'.conflict) (hnd : m.ndeliv = m'.ndeliv) (hnp : m.npre = m'.npre) :
    m = m' := by
  have hset : ∀ {s s' : BTreeSet C}, (∀ c, s.contains c = s'.contains c) → s = s' := fun hs =>
    ExtTreeSet.ext_mem fun {c} => by rw [← ExtTreeSet.contains_iff_mem, hs c,
      ExtTreeSet.contains_iff_mem]
  have hwant := ExtTreeMap.ext_getElem? fun c => (h c).want
  have hholders := ExtTreeMap.ext_getElem? fun c => (h c).holders
  have hexcluded := ExtTreeMap.ext_getElem? fun c => (h c).excluded
  have hprio := ExtTreeMap.ext_getElem? fun c => (h c).prio
  have hassign := ExtTreeMap.ext_getElem? fun c => (h c).assign
  have harrived := hset fun c => (h c).arrived
  have hlive := hset fun c => (h c).live
  have hrejected := hset fun c => (h c).rejected
  have hgot := hset fun c => (h c).got
  cases m
  cases m'
  simp_all

section Own

variable {c : C} {m m' : PullState C}

theorem SameAt.leased (h : SameAt c m m') (p : PeerId) :
    setContains m.want c p = setContains m'.want c p := by
  rw [setContains, setContains, h.want]

theorem SameAt.contains_want (h : SameAt c m m') : m.want.contains c = m'.want.contains c := by
  rw [ExtTreeMap.contains_eq_isSome_getElem?, ExtTreeMap.contains_eq_isSome_getElem?, h.want]

theorem SameAt.claimable (h : SameAt c m m') (hp : m.cfg.priority = false) (p : PeerId) :
    m.claimable c p = m'.claimable c p := by
  have hok : ∀ m : PullState C, m.cfg.priority = false → m.prioOk c = true := fun m hm => by
    simp [prioOk, hm]
  unfold PullState.claimable
  rw [h.leased, h.contains_want, h.arrived, h.got, h.live, h.cfg, h.assign, hok m hp,
    hok m' (h.cfg ▸ hp)]
  simp only [setContains, h.holders, h.excluded]

theorem SameAt.canResetExcluded (h : SameAt c m m') :
    m.canResetExcluded c = m'.canResetExcluded c := by
  unfold PullState.canResetExcluded
  rw [h.cfg, h.arrived, h.got, h.contains_want, h.excluded, h.holders]

end Own

/-- A call changes the part of its id as a function of that part and of what may be claimed of it.
-/
theorem SameAt.act {c : C} {m m' : PullState C} (h : SameAt c m m')
    (hcl : ∀ p, m.claimable c p = m'.claimable c p) {a : Action C} (hc : a.chunk = c) :
    SameAt c (m.act a) (m'.act a) := by
  cases a <;> obtain rfl := hc
  all_goals dsimp only [Action.chunk] at h hcl ⊢
  case preload c =>
    simp only [PullState.act, PullState.preload, h.got]
    split_ifs
    · exact h
    · exact { h with got := by simp }
  case setPrio c d => exact { h with prio := by simp [PullState.act, PullState.setPrio] }
  case setAssign c p =>
    exact { h with assign := by simp [PullState.act, PullState.setAssign] }
  case observeHolder c p =>
    exact { h with
      holders := by
        simp only [PullState.act, PullState.observeHolder, getElem?_setInsert, if_true,
          h.holders] }
  case loseHolder c p =>
    exact { h with
      holders := by
        simp only [PullState.act, PullState.loseHolder, getElem?_setRemove, if_true, h.holders]
      want := by
        simp only [PullState.act, PullState.loseHolder, getElem?_setRemove, if_true, h.want] }
  case arriveHist c =>
    simp only [PullState.act, PullState.arriveHist, h.got, h.rejected]
    split_ifs
    · exact h
    · exact { h with arrived := by simp }
  case arriveLive c =>
    simp only [PullState.act, PullState.arriveLive, h.got, h.rejected, h.arrived]
    split_ifs
    · exact h
    · exact { h with arrived := by simp, live := by simp }
  case want c p =>
    simp only [PullState.act, PullState.wantFrom, hcl p]
    split_ifs
    · exact h
    · exact { h with want := by simp only [getElem?_setInsert, if_true, h.want] }
  case deliver c p =>
    simp only [PullState.act, PullState.deliver, h.leased p]
    split_ifs
    · exact h
    · exact { h with
        got := by simp
        want := by simp only [getElem?_setRemove, if_true, h.want] }
  case stall c p =>
    simp only [PullState.act, PullState.stall, h.leased p, congrArg Config.failover h.cfg,
      congrArg Config.exclude h.cfg]
    split_ifs
    · exact h
    · exact { h with
        want := by simp only [getElem?_setRemove, h.want]
        excluded := by simp only [getElem?_setInsert, h.excluded] }
    · exact { h with want := by simp only [getElem?_setRemove, h.want] }
  case reject c =>
    simp only [PullState.act, PullState.reject, h.got, h.rejected]
    split_ifs
    · exact h
    · exact { h with
        rejected := by simp
        arrived := by simp
        live := by simp
        want := by simp }
  case resetExcluded c =>
    simp only [PullState.act, PullState.resetExcluded, h.canResetExcluded]
    split_ifs
    · exact h
    · exact { h with excluded := by simp }
  case forget c =>
    simp only [PullState.act, PullState.forget, h.got, h.rejected]
    split_ifs
    · exact h
    · exact { h with
        arrived := by simp
        live := by simp
        holders := by simp
        excluded := by simp
        prio := by simp }

/-- A call leaves the parts of the other ids alone, priority guard or not. -/
theorem sameAt_act {m : PullState C} {a : Action C} {d : C} (hd : a.chunk ≠ d) :
    SameAt d (m.act a) m := by
  have hrefl := SameAt.refl d m
  cases a <;> dsimp only [Action.chunk] at hd
  case preload c =>
    simp only [act, preload]
    split
    · exact hrefl
    · exact { hrefl with got := by simp [hd] }
  case setPrio c k =>
    exact { hrefl with
      prio := by simp [act, setPrio, ExtTreeMap.getElem?_insert, hd] }
  case setAssign c p =>
    exact { hrefl with
      assign := by simp [act, setAssign, ExtTreeMap.getElem?_insert, hd] }
  case observeHolder c p =>
    exact { hrefl with
      holders := by simp only [act, observeHolder, getElem?_setInsert, if_neg hd] }
  case loseHolder c p =>
    exact { hrefl with
      holders := by simp only [act, loseHolder, getElem?_setRemove, if_neg hd]
      want := by simp only [act, loseHolder, getElem?_setRemove, if_neg hd] }
  case arriveHist c =>
    simp only [act, arriveHist]
    split
    · exact hrefl
    · exact { hrefl with arrived := by simp [hd] }
  case arriveLive c =>
    simp only [act, arriveLive]
    split
    · exact hrefl
    · exact { hrefl with arrived := by simp [hd], live := by simp [hd] }
  case want c p =>
    simp only [act, wantFrom]
    split
    · exact hrefl
    · exact { hrefl with want := by simp only [getElem?_setInsert, if_neg hd] }
  case deliver c p =>
    simp only [act, deliver]
    split
    · exact hrefl
    · exact { hrefl with
        got := by simp [hd]
        want := by simp only [getElem?_setRemove, if_neg hd] }
  case stall c p =>
    simp only [act, stall]
    split
    · exact hrefl
    · exact { hrefl with
        want := by simp only [getElem?_setRemove, if_neg hd]
        excluded := by
          split
          · simp only [getElem?_setInsert, if_neg hd]
          · rfl }
  case reject c =>
    simp only [act, reject]
    split
    · exact hrefl
    · exact { hrefl with
        rejected := by simp [hd]
        arrived := by simp [hd]
        live := by simp [hd]
        want := by simp [ExtTreeMap.getElem?_erase, hd] }
  case resetExcluded c =>
    simp only [act, resetExcluded]
    split
    · exact hrefl
    · exact { hrefl with excluded := by simp [ExtTreeMap.getElem?_erase, hd] }
  case forget c =>
    simp only [act, forget]
    split
    · exact hrefl
    · exact { hrefl with
        arrived := by simp [hd]
        live := by simp [hd]
        holders := by simp [ExtTreeMap.getElem?_erase, hd]
        excluded := by simp [ExtTreeMap.getElem?_erase, hd]
        prio := by simp [ExtTreeMap.getElem?_erase, hd] }

/-- What a call returns depends on the part of its id and on what may be claimed of it. -/
theorem SameAt.result {m m' : PullState C} {a : Action C} (h : SameAt a.chunk m m')
    (hcl : ∀ p, m.claimable a.chunk p = m'.claimable a.chunk p) : m.result a = m'.result a := by
  cases a <;> dsimp only [Action.chunk] at h hcl <;> dsimp only [PullState.result]
  case preload c =>
    simp only [PullState.preload, h.got]
    split_ifs <;> rfl
  case observeHolder c p => simp only [PullState.observeHolder, setInsert, h.holders]
  case loseHolder c p =>
    simp only [PullState.loseHolder, setRemove_snd, setContains, h.holders]
  case arriveHist c =>
    simp only [PullState.arriveHist, h.got, h.rejected, h.arrived]
    split_ifs <;> rfl
  case arriveLive c =>
    simp only [PullState.arriveLive, h.got, h.rejected, h.arrived]
    split_ifs <;> rfl
  case want c p =>
    simp only [PullState.wantFrom, hcl p]
    split_ifs <;> rfl
  case deliver c p =>
    simp only [PullState.deliver, h.leased p]
    split_ifs <;> rfl
  case stall c p =>
    simp only [PullState.stall, h.leased p, h.cfg]
    split_ifs <;> rfl
  case reject c =>
    simp only [PullState.reject, h.got, h.rejected]
    split_ifs <;> rfl
  case resetExcluded c =>
    simp only [PullState.resetExcluded, h.canResetExcluded]
    split_ifs <;> rfl
  case forget c =>
    simp only [PullState.forget, h.got, h.rejected]
    split_ifs <;> rfl

/-! ## The tripwires -/

/-- The call latches the conflict tripwire. -/
def latches (m : PullState C) : Action C → Prop
  | .deliver c p => m.Leased c p ∧ c ∈ m.got
  | _ => False

/-- What the call adds to the deliveries. -/
def delivers (m : PullState C) : Action C → ℕ
  | .deliver c p => (setContains m.want c p).toNat
  | _ => 0

/-- What the call adds to the entries held before. -/
def preloads (m : PullState C) : Action C → ℕ
  | .preload c => (!m.got.contains c).toNat
  | _ => 0

theorem conflict_act (m : PullState C) (a : Action C) :
    (m.act a).conflict ↔ m.conflict ∨ m.latches a := by
  cases a with
  | deliver c p =>
    simp only [act, deliver, latches, Leased]
    split <;> simp_all
  | _ => simp [act, latches]

theorem ndeliv_act (m : PullState C) (a : Action C) :
    (m.act a).ndeliv = m.ndeliv + m.delivers a := by
  cases a with
  | deliver c p =>
    simp only [act, deliver, delivers]
    split <;> simp_all
  | _ => simp [act, delivers]

theorem npre_act (m : PullState C) (a : Action C) :
    (m.act a).npre = m.npre + m.preloads a := by
  cases a with
  | preload c =>
    simp only [act, preload, preloads]
    cases m.got.contains c <;> rfl
  | _ => simp [act, preloads]

theorem SameAt.latches {m m' : PullState C} {a : Action C} (h : SameAt a.chunk m m') :
    m.latches a ↔ m'.latches a := by
  cases a with
  | deliver c p =>
    have hl : setContains m.want c p = setContains m'.want c p := h.leased p
    have hg : m.got.contains c = m'.got.contains c := h.got
    simp only [PullState.latches, Leased, ← ExtTreeSet.contains_iff_mem, hl, hg]
  | _ => exact Iff.rfl

theorem SameAt.delivers {m m' : PullState C} {a : Action C} (h : SameAt a.chunk m m') :
    m.delivers a = m'.delivers a := by
  cases a with
  | deliver c p => exact congrArg Bool.toNat (h.leased p)
  | _ => rfl

theorem SameAt.preloads {m m' : PullState C} {a : Action C} (h : SameAt a.chunk m m') :
    m.preloads a = m'.preloads a := by
  cases a with
  | preload c => exact congrArg (fun b : Bool => (!b).toNat) h.got
  | _ => rfl

/-! ## The sum -/

/-- A machine whose priority guard is off. -/
def Flat (C : Type) [LinearOrder C] : Type := {m : PullState C // m.cfg.priority = false}

/-- Such a machine is a system whose calls each name an id. -/
def keyed : Keyed (Flat C) (Action C) C where
  step m a := ⟨m.1.act a, by rw [act_cfg]; exact m.2⟩
  key := Action.chunk
  same c m m' := SameAt c m.1 m'.1
  equiv c := ⟨fun m => SameAt.refl c m.1, SameAt.symm, SameAt.trans⟩
  own {m _ _} h := h.act (h.claimable m.2) rfl
  other hc := sameAt_act hc

/-- What the calls of a list return. -/
def results : PullState C → List (Action C) → List (Action C × Option Bool)
  | _, [] => []
  | m, a :: as => (a, m.result a) :: results (m.act a) as

/-- The calls on `c`. -/
def callsOn (c : C) (as : List (Action C)) : List (Action C) :=
  as.filter fun a => decide (a.chunk = c)

theorem keyed_run (m : Flat C) (as : List (Action C)) : (keyed.run m as).1 = m.1.acts as := by
  induction as generalizing m with
  | nil => rfl
  | cons a as ih => exact ih (keyed.step m a)

theorem keyed_outs (m : Flat C) (as : List (Action C)) :
    keyed.outs (fun m a => m.1.result a) m as = m.1.results as := by
  induction as generalizing m with
  | nil => rfl
  | cons a as ih => exact congrArg _ (ih (keyed.step m a))

/-- Calls on different ids commute, and neither changes what the other returns. -/
theorem act_comm {m : PullState C} (hp : m.cfg.priority = false) {a b : Action C}
    (h : a.chunk ≠ b.chunk) : (m.act a).act b = (m.act b).act a
      ∧ (m.act a).result b = m.result b ∧ (m.act b).result a = m.result a := by
  have hb := sameAt_act (m := m) h
  have ha := sameAt_act (m := m) h.symm
  have hpa : (m.act a).cfg.priority = false := by rw [act_cfg]; exact hp
  have hpb : (m.act b).cfg.priority = false := by rw [act_cfg]; exact hp
  refine ⟨ext_sameAt ?_ (keyed.same_comm h ⟨m, hp⟩) ?_ ?_ ?_, hb.result (hb.claimable hpa),
    ha.result (ha.claimable hpb)⟩
  · simp only [act_cfg]
  · rw [Bool.eq_iff_iff]
    simp only [conflict_act, hb.latches, ha.latches, or_assoc, or_comm (a := m.latches a)]
  · simp only [ndeliv_act, hb.delivers, ha.delivers]
    omega
  · simp only [npre_act, hb.preloads, ha.preloads]
    omega

/-- With the priority guard off the machine is the sum of its per-chunk machines: the part of every
id and what the calls on it return are those of the calls on it alone, the tripwire is latched where
one of these runs latches it, and the counters are the sums over the ids. So calls on different ids
commute. -/
theorem direct_sum {cfg : Config} (hp : cfg.priority = false) (as : List (Action C)) :
    (∀ c, SameAt c ((new cfg).acts as) ((new cfg).acts (callsOn c as))
        ∧ ((results (new cfg) as).filter fun e => decide (e.1.chunk = c))
          = results (new cfg) (callsOn c as))
      ∧ (((new cfg).acts as).conflict ↔ ∃ c, ((new cfg).acts (callsOn c as)).conflict)
      ∧ ((new cfg).acts as).ndeliv
          = ∑ c ∈ (as.map Action.chunk).toFinset, ((new cfg).acts (callsOn c as)).ndeliv
      ∧ ((new cfg).acts as).npre
          = ∑ c ∈ (as.map Action.chunk).toFinset, ((new cfg).acts (callsOn c as)).npre
      ∧ ∀ m : PullState C, m.cfg = cfg → ∀ a b : Action C, a.chunk ≠ b.chunk →
          (m.act a).act b = (m.act b).act a
            ∧ (m.act a).result b = m.result b ∧ (m.act b).result a = m.result a := by
  let s : Flat C := ⟨new cfg, hp⟩
  have hkeys : ∀ a ∈ as, keyed.key a ∈ (as.map Action.chunk).toFinset := fun a ha =>
    List.mem_toFinset.mpr (List.mem_map.mpr ⟨a, ha, rfl⟩)
  have hrun : ∀ as, (new cfg : PullState C).acts as = (keyed.run s as).1 := fun as =>
    (keyed_run s as).symm
  have houts : ∀ as, results (new cfg : PullState C) as = keyed.outs (fun m a => m.1.result a) s as :=
    fun as => (keyed_outs s as).symm
  refine ⟨fun c => ⟨?_, ?_⟩, ?_, ?_, ?_, fun m hm a b hab => act_comm (by rw [hm, hp]) hab⟩
  · rw [hrun, hrun]
    exact keyed.same_run (SameAt.refl c _) as
  · rw [houts, houts]
    exact keyed.outs_part (fun m m' a h => h.result (h.claimable m.2)) (SameAt.refl c _) as
  · simp only [hrun]
    exact keyed.flag_run (fun m => m.1.conflict) (fun m a => m.1.latches a)
      (fun m a => m.1.conflict_act a) (fun _ _ _ h => h.latches) (by simp [s, new]) as
  · simp only [hrun]
    exact keyed.sum_run (fun m => m.1.ndeliv) (fun m a => m.1.delivers a)
      (fun m a => m.1.ndeliv_act a) (fun _ _ _ h => h.delivers) rfl _ as hkeys
  · simp only [hrun]
    exact keyed.sum_run (fun m => m.1.npre) (fun m a => m.1.preloads a)
      (fun m a => m.1.npre_act a) (fun _ _ _ h => h.preloads) rfl _ as hkeys

/-- Two ids with interleaved calls. -/
theorem direct_sum_two :
    SameAt 1 ((new { Config.production with priority := false } : PullState ℕ).acts
        [.arriveHist 1, .preload 2, .observeHolder 1 3, .want 1 3])
      ((new { Config.production with priority := false }).acts (callsOn 1
        [.arriveHist 1, .preload 2, .observeHolder 1 3, .want 1 3])) :=
  ((direct_sum (show ({ Config.production with priority := false } : Config).priority = false from rfl)
    [.arriveHist 1, .preload 2, .observeHolder 1 3, .want 1 3]).1 1).1

end PullState

end Melissi.Machine
