import Melissi.Machine.Rows

/-!
# Each repair is needed

Reference: the ablations of `crates/machine/tests/parity.rs`. Each of those rows turns one repair off
and finds its property broken in one small scenario. Here the property is broken in exactly those
scenarios, of any size, that give the missing repair something to do; the machine's checks still
pass, except without dedup, where the only one to fail is `ConflictFree`.
-/

namespace Melissi.Machine.Explore

open Melissi.Common Melissi.Machine.PullState
open Std (ExtTreeMap ExtTreeSet)

variable {sc : Scenario} {w w' : World} {c d : Cid} {p q : PeerId}

/-- The repairs all on, the priority either way. -/
def allOn (priority : Bool) : Config := { Config.production with priority := priority }

/-- What the rows start from. -/
def scenario : Scenario where
  cfg := allOn false
  chunks := [1, 2, 3]
  peers := [1, 2, 3]
  holds := [(1, [1, 2, 3]), (2, [1, 2, 3]), (3, [1, 2, 3])]
  byzantine := []
  live := []
  prio := []
  assign := []
  timeoutBudget := 0
  churnBudget := 0

/-- The third peer holds two of the chunks and serves none. -/
def omission : Scenario :=
  { scenario with holds := [(1, [1, 3]), (2, [2, 3]), (3, [1, 2])], byzantine := [3] }

/-- Some run comes to its end with a chunk missing. -/
def Incomplete (sc : Scenario) : Prop :=
  ∃ w, Reachable sc w ∧ enabled sc w = [] ∧ ∃ c ∈ sc.chunks, c ∉ w.m.got

/-- The checks pass in every world reached. -/
def Passes (sc : Scenario) : Prop := ∀ w, Reachable sc w → checkEnvInvariants sc w = .ok ()

/-- With dedup on a row passes its checks, whatever its other knobs. -/
theorem Scenario.Row.passes (h : sc.Row) (hd : sc.cfg.dedup) : Passes sc := fun w hr =>
  (hr.kept h).checkEnvInvariants h ((hr.safe hd).checkInvariants (by rw [(hr.kept h).cfg]; exact hd))

/-- Where nothing is enabled no honest holder has a claim to answer. -/
theorem not_guard_of_terminal (ht : enabled sc w = []) (a : Act) : ¬ Guard sc w a := fun ha => by
  simpa [ht] using (mem_enabled a).mpr ha

/-- A loss that no later step makes good leaves some run incomplete. -/
theorem incomplete_of_lost (h : sc.Row) (hd : sc.cfg.dedup) (he : sc.cfg.exclude)
    (Lost : World → Prop) (hr : Reachable sc w) (hw : Lost w)
    (hstep : ∀ w a, Kept sc w → Safe w.m → Lost w → Guard sc w a → Lost (apply sc w a))
    (hc : c ∈ sc.chunks) (hlost : ∀ w, Safe w.m → Lost w → c ∉ w.m.got) : Incomplete sc := by
  obtain ⟨w', hrun, hend⟩ := exists_terminal h hd he hr
  have hkeep : Reachable sc w' ∧ Lost w' := by
    refine invariant_of_reachable (I := fun w => Reachable sc w ∧ Lost w) ?_ ⟨hr, hw⟩ hrun
    rintro w - ⟨hr, hw⟩ ⟨a, ha, rfl⟩
    exact ⟨hr.tail ⟨a, ha, rfl⟩, hstep w a (hr.kept h) (hr.safe hd) hw ((mem_enabled a).mp ha)⟩
  exact ⟨w', hkeep.1, hend, c, hc, hlost w' (hkeep.1.safe hd) hkeep.2⟩

/-- At the end of a run nothing is in flight, if failover is on or the holders asked are honest. -/
theorem free_of_terminal (h : sc.Row) (hr : Reachable sc w) (ht : enabled sc w = [])
    (hanswered : ∀ d p, w.m.Leased d p → sc.honest p ∨ sc.cfg.failover) (d : Cid) (p : PeerId) :
    ¬ w.m.Leased d p := fun hl => by
  have hno := not_guard_of_terminal ht
  by_cases hp : sc.honest p
  · exact hno (.deliver d p) ⟨hl, hp⟩
  · have hf := (hanswered d p hl).resolve_left hp
    exact hno (.stall d p) ⟨hl, by rw [(hr.kept h).cfg]; exact hf, fun hp' => absurd hp' hp⟩

/-- If from the end of a run every chunk can still be had, none is missing there. -/
theorem stored_of_sources (h : sc.Row) (hr : Reachable sc w) (ht : enabled sc w = [])
    (hanswered : ∀ d p, w.m.Leased d p → sc.honest p ∨ sc.cfg.failover)
    (hsource : (∀ d p, ¬ w.m.Leased d p) → ∀ d ∈ w.m.arrived, d ∉ w.m.got →
      ∃ p, sc.Source d p ∧ ¬ w.m.Barred d p)
    (hc : c ∈ sc.chunks) : c ∈ w.m.got := by
  have hk := hr.kept h
  have hno := not_guard_of_terminal ht
  have hfree := free_of_terminal h hr ht hanswered
  by_contra hg
  have harr : c ∈ w.m.arrived := by
    by_contra hn
    exact hno (.new c) ⟨(hk.arrives c hc).resolve_left hn, hg, hk.unrejected c, hn⟩
  obtain ⟨d, p, hcl⟩ := hk.exists_claimable hfree harr hg (hsource hfree)
  exact hno (.want d p) hcl

/-- Where live arrivals are pulled and no source is fixed, an honest holder is a source. -/
theorem exists_source (h : sc.Row) (hs : ¬ sc.cfg.singleSource) (hl : sc.cfg.enableLive)
    (hc : c ∈ sc.chunks) : ∃ p, sc.Source c p ∧ sc.honest p := by
  obtain ⟨p, hp, hh⟩ := h.supplied c hc
  exact ⟨p, ⟨hp, fun hs' => absurd hs' hs, fun hn => absurd hl hn⟩, hh⟩

theorem source_of_holds (hs : ¬ sc.cfg.singleSource) (hl : sc.cfg.enableLive) (hp : sc.Holds c p) :
    sc.Source c p := ⟨hp, fun hs' => absurd hs' hs, fun hn => absurd hl hn⟩

/-- Where live arrivals are pulled and no source is fixed, any holder of a chunk may come to have the
first claim on it. -/
theorem exists_claim (h : sc.Row) (hs : ¬ sc.cfg.singleSource) (hl : sc.cfg.enableLive)
    (hc : c ∈ sc.chunks) (hp : sc.Holds c p) :
    ∃ w, Reachable sc w ∧ w.m.claimable c p ∧ (∀ d q, ¬ w.m.Leased d q)
      ∧ (∀ d q, ¬ w.m.Barred d q) ∧ c ∉ w.m.got := by
  obtain ⟨w, hr, harr, hgot, hfree, hbar, -⟩ := exists_arrived hc
  have hk := hr.kept h
  obtain ⟨w', hrun, hclear, hclaim⟩ := exists_cleared h hk hfree
    (fun d hd _ => exists_source h hs hl (hk.arrived_sub d hd)) (fun d _ q => hbar d q) harr (hgot c)
    (source_of_holds hs hl hp) (hbar c p)
  exact ⟨w', hr.trans hrun, hclaim, hclear.free, by rwa [hclear.barred], mt hclear.got.mp (hgot c)⟩

/-! ## Failover -/

/-- Without failover a run may stay incomplete exactly where some chunk has a byzantine holder. -/
theorem failover_needed (h : sc.Row) (hcfg : ∃ b, sc.cfg = { allOn b with failover := false }) :
    Passes sc ∧ (Incomplete sc ↔ ∃ c ∈ sc.chunks, ∃ p, sc.Holds c p ∧ ¬ sc.honest p) := by
  obtain ⟨b, hcfg⟩ := hcfg
  have hd : sc.cfg.dedup := by rw [hcfg]; rfl
  have he : sc.cfg.exclude := by rw [hcfg]; rfl
  have hs : ¬ sc.cfg.singleSource := by rw [hcfg]; exact Bool.false_ne_true
  have hl : sc.cfg.enableLive := by rw [hcfg]; rfl
  have hf : ¬ sc.cfg.failover := by rw [hcfg]; exact Bool.false_ne_true
  refine ⟨h.passes hd, ?_, ?_⟩
  · rintro ⟨w, hr, ht, c, hc, hg⟩
    by_contra hno
    push Not at hno
    refine hg (stored_of_sources h hr ht (fun d p hlease => .inl ?_) (fun _ d hd _ => ?_) hc)
    · obtain ⟨harr, hp, -⟩ := (hr.kept h).leased d p hlease
      exact hno d ((hr.kept h).arrived_sub d harr) p hp
    · -- nobody is ever barred
      have hbars : ∀ d q, ¬ w.m.Barred d q := by
        refine invariant_of_reachable
          (I := fun w => w.m.cfg = sc.cfg ∧ ∀ d q, ¬ w.m.Barred d q) ?_
          ⟨(blank_initMachine sc).cfg, (blank_initMachine sc).unbarred⟩ hr |>.2
        rintro w - ⟨hcfg', hbar⟩ ⟨a, ha, rfl⟩
        refine ⟨by rw [apply_m, act_cfg, hcfg'], fun d q => ?_⟩
        have hguard := (mem_enabled a).mp ha
        cases a with
        | stall c p => exact absurd (hcfg' ▸ hguard.2.1) hf
        | reset c => exact fun hb => hbar d q ((barred_resetExcluded ..).mp hb).2
        | _ => simpa [apply] using hbar d q
      obtain ⟨p, hp, -⟩ := exists_source h hs hl ((hr.kept h).arrived_sub d hd)
      exact ⟨p, hp, hbars d p⟩
  · rintro ⟨c, hc, p, hp, hbyz⟩
    obtain ⟨w, hr, hclaim, -, -, -⟩ := exists_claim h hs hl hc hp
    refine incomplete_of_lost h hd he (fun w => w.m.Leased c p)
      (hr.tail (step_of_guard (.want c p) hclaim))
      ((leased_wantFrom ..).mpr (.inl ⟨hclaim, rfl, rfl⟩)) ?_ hc
      fun w hsafe hlease => hsafe.claims.unstored c p hlease
    intro w a hk _ hlease ha
    cases a with
    | want d q => exact (leased_wantFrom ..).mpr (.inr hlease)
    | deliver d q =>
      refine (leased_deliver ..).mpr ⟨?_, hlease⟩
      rintro ⟨rfl, rfl⟩
      exact hbyz ha.2
    | stall d q => exact absurd (hk.cfg ▸ ha.2.1) hf
    | lose d q => exact absurd ha.1 (by rw [hk.chn]; exact lt_irrefl 0)
    | _ => simpa [apply] using hlease

theorem failover_needed_omission :
    let sc := { omission with cfg := { allOn false with failover := false } }
    Passes sc ∧ Incomplete sc := by
  intro sc
  have hrow : sc.Row := by constructor <;> decide +kernel
  obtain ⟨hpass, hiff⟩ := failover_needed hrow ⟨false, rfl⟩
  exact ⟨hpass, hiff.mpr (by decide +kernel)⟩

/-! ## The reset -/

/-- The honest holders of a chunk. -/
def Scenario.honestHolders (sc : Scenario) (c : Cid) : Finset PeerId :=
  Finset.univ.filter fun p => sc.Holds c p ∧ sc.honest p

/-- The holders of a chunk, the honest ones first. -/
noncomputable def Scenario.holdersList (sc : Scenario) (c : Cid) : List PeerId :=
  (sc.honestHolders c).toList ++ (Finset.univ.filter fun p => sc.Holds c p ∧ ¬ sc.honest p).toList

theorem Scenario.mem_holdersList (sc : Scenario) : p ∈ sc.holdersList c ↔ sc.Holds c p := by
  simp only [holdersList, honestHolders, List.mem_append, Finset.mem_toList, Finset.mem_filter,
    Finset.mem_univ, true_and, ← and_or_left, Bool.not_eq_true]
  exact and_iff_left (by cases sc.honest p <;> simp)

theorem Scenario.length_holdersList (sc : Scenario) :
    ((sc.holdersList c).filter sc.honest).length = (sc.honestHolders c).card := by
  have hall : (sc.honestHolders c).toList.filter sc.honest = (sc.honestHolders c).toList :=
    List.filter_eq_self.mpr fun p hp =>
      (by simpa [honestHolders] using hp : sc.Holds c p ∧ sc.honest p).2
  have hnone : ((Finset.univ.filter fun p => sc.Holds c p ∧ ¬ sc.honest p).toList).filter sc.honest
      = [] := List.filter_eq_nil_iff.mpr fun p hp => by simpa using (by simpa using hp : _ ∧ _).2
  rw [holdersList, List.filter_append, hall, hnone, List.append_nil, Finset.length_toList]

/-- A stall bars the holder whose claim it ends. -/
theorem exists_barred (hf : sc.cfg.failover) (he : sc.cfg.exclude)
    (hk : Kept sc w) (hclaim : w.m.claimable c p) (hfree : ∀ d q, ¬ w.m.Leased d q)
    (htmo : sc.honest p → 0 < w.tmo) :
    ∃ w', Relation.ReflTransGen (Step sc) w w' ∧ (∀ d q, ¬ w'.m.Leased d q)
      ∧ (∀ d q, w'.m.Barred d q ↔ c = d ∧ p = q ∨ w.m.Barred d q)
      ∧ w'.m.arrived = w.m.arrived ∧ (∀ d, d ∈ w'.m.got ↔ d ∈ w.m.got)
      ∧ w'.tmo = if sc.honest p then w.tmo - 1 else w.tmo := by
  have hone : ∀ d q, (apply sc w (.want c p)).m.Leased d q ↔ c = d ∧ p = q := fun d q => by
    have := w.m.leased_wantFrom c d p q
    simp only [hclaim, hfree, or_false, true_and] at this
    exact this
  have hcfg : (apply sc w (.want c p)).m.cfg = sc.cfg := by rw [apply_m, act_cfg, hk.cfg]
  have hguard : Guard sc (apply sc w (.want c p)) (.stall c p) :=
    ⟨(hone c p).mpr ⟨rfl, rfl⟩, by rw [hcfg]; exact hf, htmo⟩
  refine ⟨apply sc (apply sc w (.want c p)) (.stall c p), .head (step_of_guard (.want c p) hclaim)
    (.single (step_of_guard (.stall c p) hguard)), ?_, ?_, ?_, ?_, rfl⟩
  · intro d q hl
    obtain ⟨hne, hl⟩ := (leased_stall ..).mp hl
    exact hne ⟨hguard.2.1, (hone d q).mp hl⟩
  · intro d q
    refine (barred_stall ..).trans ?_
    rw [hcfg]
    simp [hf, he, hclaim, apply]
  · simp [apply]
  · intro d
    simp [apply]

/-- Every holder on a list may come to be barred, if the budget covers the honest ones. -/
theorem exists_exhausted (h : sc.Row) (hs : ¬ sc.cfg.singleSource) (hl : sc.cfg.enableLive)
    (hf : sc.cfg.failover) (he : sc.cfg.exclude) (ps : List PeerId) (hps : ∀ p ∈ ps, sc.Holds c p)
    (hr : Reachable sc w) (hfree : ∀ d q, ¬ w.m.Leased d q)
    (hclean : ∀ d, d ≠ c → ∀ q, ¬ w.m.Barred d q) (hc : c ∈ w.m.arrived) (hg : c ∉ w.m.got)
    (htmo : (ps.filter sc.honest).length ≤ w.tmo) :
    ∃ w', Reachable sc w' ∧ (∀ p, p ∈ ps ∨ w.m.Barred c p → w'.m.Barred c p)
      ∧ (∀ d q, ¬ w'.m.Leased d q) ∧ c ∉ w'.m.got := by
  induction ps generalizing w with
  | nil => exact ⟨w, hr, fun p hp => hp.resolve_left List.not_mem_nil, hfree, hg⟩
  | cons p ps ih =>
    have hps' : ∀ q ∈ ps, sc.Holds c q := fun q hq => hps q (List.mem_cons_of_mem p hq)
    by_cases hbar : w.m.Barred c p
    · have hle : (ps.filter sc.honest).length ≤ ((p :: ps).filter sc.honest).length :=
        (List.sublist_cons_self p ps).filter sc.honest |>.length_le
      obtain ⟨w', hr', hbars, hrest⟩ := ih hps' hr hfree hclean hc hg (hle.trans htmo)
      refine ⟨w', hr', fun q hq => ?_, hrest⟩
      rcases hq with hq | hq
      · rcases List.mem_cons.mp hq with rfl | hq
        · exact hbars q (.inr hbar)
        · exact hbars q (.inl hq)
      · exact hbars q (.inr hq)
    · have hk := hr.kept h
      obtain ⟨w₁, hrun₁, hclear, hclaim⟩ := exists_cleared h hk hfree
        (fun d hd _ => exists_source h hs hl (hk.arrived_sub d hd)) hclean hc hg
        (source_of_holds hs hl (hps p List.mem_cons_self)) hbar
      have hpos : sc.honest p → 0 < w₁.tmo := fun hp => by
        rw [List.filter_cons_of_pos hp, List.length_cons] at htmo
        rw [hclear.tmo]
        omega
      obtain ⟨w₂, hrun₂, hfree₂, hbar₂, harr₂, hgot₂, htmo₂⟩ :=
        exists_barred hf he (hk.reaches h hrun₁) hclaim hclear.free hpos
      have hbudget : (ps.filter sc.honest).length ≤ w₂.tmo := by
        rw [htmo₂, hclear.tmo]
        split
        · next hp =>
          rw [List.filter_cons_of_pos hp, List.length_cons] at htmo
          omega
        · next hp => rwa [List.filter_cons_of_neg hp] at htmo
      obtain ⟨w', hr', hbars, hrest⟩ := ih hps' ((hr.trans hrun₁).trans hrun₂) hfree₂
        (fun d hd q hb => ((hbar₂ d q).mp hb).elim (fun he => hd he.1.symm)
          fun hb => hclean d hd q (hclear.barred ▸ hb))
        (by rw [harr₂, hclear.arrived]; exact hc) (by rw [hgot₂, hclear.got]; exact hg) hbudget
      refine ⟨w', hr', fun q hq => ?_, hrest⟩
      rcases hq with hq | hq
      · rcases List.mem_cons.mp hq with rfl | hq
        · exact hbars q (.inr ((hbar₂ c q).mpr (.inl ⟨rfl, rfl⟩)))
        · exact hbars q (.inl hq)
      · exact hbars q (.inr ((hbar₂ c q).mpr (.inr (hclear.barred ▸ hq))))

/-- The timeouts spent cover the honest bars of each chunk. -/
theorem honest_bars_le (hr : Reachable sc w) (c : Cid) :
    count Finset.univ (fun p => w.m.Barred c p ∧ sc.honest p) + w.tmo ≤ sc.timeoutBudget := by
  refine invariant_of_reachable (I := fun w =>
    count Finset.univ (fun p => w.m.Barred c p ∧ sc.honest p) + w.tmo ≤ sc.timeoutBudget) ?_ ?_ hr
  · rintro w - hle ⟨a, ha, rfl⟩
    have hguard := (mem_enabled a).mp ha
    cases a with
    | stall d q =>
      obtain ⟨hl, hf, htmo⟩ := hguard
      by_cases hq : sc.honest q
      · have hbars : count Finset.univ (fun p => (w.m.stall d q).1.Barred c p ∧ sc.honest p)
            ≤ count Finset.univ (fun p => w.m.Barred c p ∧ sc.honest p) + 1 := by
          refine count_le_succ q fun p _ hp => ?_
          rcases (barred_stall ..).mp hp.1 with ⟨-, -, rfl⟩ | hb
          · exact .inr rfl
          · exact .inl ⟨hb, hp.2⟩
        have htmo := htmo hq
        simp only [apply, hq, if_true]
        omega
      · have hbars : count Finset.univ (fun p => (w.m.stall d q).1.Barred c p ∧ sc.honest p)
            ≤ count Finset.univ (fun p => w.m.Barred c p ∧ sc.honest p) := by
          refine count_le fun p _ hp => ?_
          rcases (barred_stall ..).mp hp.1 with ⟨-, -, rfl⟩ | hb
          · exact absurd hp.2 hq
          · exact ⟨hb, hp.2⟩
        simp only [apply, hq]
        exact (Nat.add_le_add_right hbars _).trans hle
    | reset d =>
      have hbars : count Finset.univ (fun p => (w.m.resetExcluded d).1.Barred c p ∧ sc.honest p)
          ≤ count Finset.univ (fun p => w.m.Barred c p ∧ sc.honest p) :=
        count_le fun p _ hp => ⟨((barred_resetExcluded ..).mp hp.1).2, hp.2⟩
      exact (Nat.add_le_add_right hbars _).trans hle
    | _ => simpa [apply] using hle
  · have hzero : count Finset.univ (fun p => (init sc).m.Barred c p ∧ sc.honest p) = 0 :=
      count_eq_zero fun p _ hp => (blank_initMachine sc).unbarred c p hp.1
    rw [hzero, Nat.zero_add]
    exact le_rfl

/-- Without the reset a run may stay incomplete exactly where the timeouts can bar all honest holders
of some chunk. -/
theorem reset_needed (h : sc.Row) (hcfg : ∃ b, sc.cfg = { allOn b with resetOnExhaust := false }) :
    Passes sc
      ∧ (Incomplete sc ↔ ∃ c ∈ sc.chunks, (sc.honestHolders c).card ≤ sc.timeoutBudget) := by
  obtain ⟨b, hcfg⟩ := hcfg
  have hd : sc.cfg.dedup := by rw [hcfg]; rfl
  have he : sc.cfg.exclude := by rw [hcfg]; rfl
  have hs : ¬ sc.cfg.singleSource := by rw [hcfg]; exact Bool.false_ne_true
  have hl : sc.cfg.enableLive := by rw [hcfg]; rfl
  have hf : sc.cfg.failover := by rw [hcfg]; rfl
  have hreset : ¬ sc.cfg.resetOnExhaust := by rw [hcfg]; exact Bool.false_ne_true
  refine ⟨h.passes hd, ?_, ?_⟩
  · rintro ⟨w, hr, ht, c, hc, hg⟩
    by_contra hno
    push Not at hno
    refine hg (stored_of_sources h hr ht (fun _ _ _ => .inr hf) (fun _ d hd _ => ?_) hc)
    by_contra hbars
    push Not at hbars
    -- then all honest holders of `d` are barred, and the timeouts have paid for that
    have hcard : (sc.honestHolders d).card
        ≤ count Finset.univ (fun p => w.m.Barred d p ∧ sc.honest p) := by
      refine card_le_count fun p hp => ?_
      obtain ⟨-, hp, hh⟩ := Finset.mem_filter.mp hp
      exact ⟨Finset.mem_univ p, hbars p (source_of_holds hs hl hp), hh⟩
    have hpaid := honest_bars_le hr d
    have hmore := hno d ((hr.kept h).arrived_sub d hd)
    omega
  · rintro ⟨c, hc, hcard⟩
    obtain ⟨w, hr, harr, hgot, hfree, hbar, htmo⟩ := exists_arrived hc
    have hall : ∀ p, p ∈ sc.holdersList c ↔ sc.Holds c p := fun p => sc.mem_holdersList
    obtain ⟨w', hr', hbars, hfree', hgot'⟩ := exists_exhausted h hs hl hf he (sc.holdersList c)
      (fun p hp => (hall p).mp hp) hr hfree (fun d _ q => hbar d q) harr (hgot c)
      (by rw [htmo]; exact sc.length_holdersList.trans_le hcard)
    refine incomplete_of_lost h hd he (fun w => (∀ p, sc.Holds c p → w.m.Barred c p)
      ∧ (∀ p, ¬ w.m.Leased c p) ∧ c ∉ w.m.got) hr'
      ⟨fun p hp => hbars p (.inl ((hall p).mpr hp)), hfree' c, hgot'⟩ ?_ hc fun w _ hw => hw.2.2
    rintro w a hk - ⟨hall, hnone, hg⟩ ha
    have hcfg' : w.m.cfg = sc.cfg := hk.cfg
    cases a with
    | want d q =>
      refine ⟨by simpa [apply] using hall, fun p hl => ?_, by simpa [apply] using hg⟩
      rcases (leased_wantFrom ..).mp hl with ⟨hcl, rfl, rfl⟩ | hl
      · obtain ⟨-, hp, -, -, hb, -⟩ := hk.claimable_iff.mp hcl
        exact hb (hall q hp)
      · exact hnone p hl
    | deliver d q =>
      refine ⟨by simpa [apply] using hall, fun p hl => hnone p ((leased_deliver ..).mp hl).2, ?_⟩
      rintro hn
      rcases (mem_got_deliver ..).mp hn with ⟨rfl, hl⟩ | hn
      · exact hnone q hl
      · exact hg hn
    | stall d q =>
      refine ⟨fun p hp => (barred_stall ..).mpr (.inr (hall p hp)),
        fun p hl => hnone p ((leased_stall ..).mp hl).2, by simpa [apply] using hg⟩
    | lose d q => exact absurd ha.1 (by rw [hk.chn]; exact lt_irrefl 0)
    | gain d q => exact absurd ha.1 (by rw [hk.chn]; exact lt_irrefl 0)
    | new d => exact ⟨by simpa [apply] using hall, by simpa [apply] using hnone,
        by simpa [apply] using hg⟩
    | reset d =>
      exact absurd ((w.m.canResetExcluded_iff d).mp ha.2).1 (by rw [hcfg']; exact hreset)

theorem reset_needed_partial :
    let sc := { scenario with
      cfg := { allOn false with resetOnExhaust := false }
      holds := [(1, [1, 2]), (2, [2, 3]), (3, [3])]
      timeoutBudget := 1 }
    Passes sc ∧ Incomplete sc := by
  intro sc
  have hrow : sc.Row := by constructor <;> decide +kernel
  obtain ⟨hpass, hiff⟩ := reset_needed hrow ⟨false, rfl⟩
  exact ⟨hpass, hiff.mpr (by decide +kernel)⟩

/-! ## Exclusion -/

/-- A byzantine stall without exclusion leads back to the world before the claim. -/
theorem regrab (hk : Kept sc w) (hf : sc.cfg.failover) (he : ¬ sc.cfg.exclude)
    (hclaim : w.m.claimable c p) (hbyz : ¬ sc.honest p) : Relation.TransGen (Step sc) w w := by
  have hcfg : (apply sc w (.want c p)).m.cfg = sc.cfg := by rw [apply_m, act_cfg, hk.cfg]
  have hlease : (apply sc w (.want c p)).m.Leased c p :=
    (leased_wantFrom ..).mpr (.inl ⟨hclaim, rfl, rfl⟩)
  have hstall : Guard sc (apply sc w (.want c p)) (.stall c p) :=
    ⟨hlease, by rw [hcfg]; exact hf, fun hp => absurd hp hbyz⟩
  have hback : apply sc (apply sc w (.want c p)) (.stall c p) = w := by
    have hm : (apply sc (apply sc w (.want c p)) (.stall c p)).m = w.m := by
      have hnormal : Normalised (apply sc (apply sc w (.want c p)) (.stall c p)).m := by
        rw [apply_m, apply_m]
        exact (hk.normal.act _).act _
      have hfree := ((w.m.claimable_iff c p).mp hclaim).2.2.2.1
      refine ext_kept hnormal hk.normal ?_ (fun d q => ?_) ?_ (fun d q => ?_) ?_ ?_ ?_ ?_ ?_ ?_ ?_ ?_ ?_
      · rw [apply_m, act_cfg, hcfg, hk.cfg]
      · refine (leased_stall ..).trans ?_
        rw [hcfg, show (apply sc w (.want c p)).m.Leased d q ↔ _ from leased_wantFrom ..]
        constructor
        · rintro ⟨hne, ⟨-, rfl, rfl⟩ | hl⟩
          · exact absurd ⟨hf, rfl, rfl⟩ hne
          · exact hl
        · refine fun hl => ⟨?_, .inr hl⟩
          rintro ⟨-, rfl, rfl⟩
          exact hfree hl
      · simp [apply]
      · refine (barred_stall ..).trans ?_
        rw [hcfg]
        simp [he, apply]
      · simp [apply]
      · simp [apply]
      · simp [apply]
      · simp [apply]
      · simp [apply]
      · rw [(prio_assign_apply _ _).2, (prio_assign_apply _ _).2]
      · simp [apply]
      · simp [apply]
      · simp [apply]
    have htmo : (apply sc (apply sc w (.want c p)) (.stall c p)).tmo = w.tmo := by
      simp [apply, hbyz]
    have hchn : (apply sc (apply sc w (.want c p)) (.stall c p)).chn = w.chn := rfl
    exact (World.mk.injEq ..).mpr ⟨hm, htmo, hchn⟩
  have hlast := step_of_guard (.stall c p) hstall
  rw [hback] at hlast
  exact .tail (.single (step_of_guard (.want c p) hclaim)) hlast

/-- What timeouts, arrivals and deliveries use up, and then what claims do. -/
noncomputable def unexcluded (sc : Scenario) (w : World) : ℕ ×ₗ ℕ :=
  toLex (w.tmo + count sc.chunks.toFinset (· ∉ w.m.arrived) + count sc.chunks.toFinset (· ∉ w.m.got),
    idle sc w)

/-- Where nobody is byzantine, and nobody barred, every action uses something up. -/
theorem unexcluded_apply_lt (h : sc.Row) (hd : sc.cfg.dedup) (hk : Kept sc w) (hsafe : Safe w.m)
    (hbar : ∀ d q, ¬ w.m.Barred d q) (hhonest : ∀ c ∈ sc.chunks, ∀ p, sc.Holds c p → sc.honest p)
    {a : Act} (ha : Guard sc w a) : unexcluded sc (apply sc w a) < unexcluded sc w := by
  have hlower : ∀ w' : World,
      w'.tmo + count sc.chunks.toFinset (· ∉ w'.m.arrived) + count sc.chunks.toFinset (· ∉ w'.m.got)
        < w.tmo + count sc.chunks.toFinset (· ∉ w.m.arrived)
          + count sc.chunks.toFinset (· ∉ w.m.got) → unexcluded sc w' < unexcluded sc w :=
    fun w' hlt => Prod.Lex.toLex_lt_toLex.mpr (.inl hlt)
  cases a with
  | want c p =>
    obtain ⟨harr, -, -, -, -, hfree, -⟩ := hk.claimable_iff.mp ha
    have hidle : idle sc (apply sc w (.want c p)) < idle sc w := by
      refine count_lt c (List.mem_toFinset.mpr (hk.arrived_sub c harr)) (hfree hd) (fun hn => hn ?_)
        fun d _ hd hw => hd ?_
      · exact Leased.mem_want ((leased_wantFrom ..).mpr (.inl ⟨ha, rfl, rfl⟩))
      · obtain ⟨q, hq⟩ := (hk.normal.want.mem_iff d).mp hw
        exact Leased.mem_want ((leased_wantFrom ..).mpr (.inr hq))
    refine Prod.Lex.toLex_lt_toLex.mpr (.inr ⟨?_, hidle⟩)
    simp [apply]
  | deliver c p =>
    have hgot : count sc.chunks.toFinset (· ∉ (w.m.deliver c p).1.got)
        < count sc.chunks.toFinset (· ∉ w.m.got) := by
      refine count_lt c (List.mem_toFinset.mpr (hk.arrived_sub c (hk.leased c p ha.1).1))
        (hsafe.claims.unstored c p ha.1) ?_ fun d _ hd hg => hd ?_
      · simp [ha.1]
      · exact (mem_got_deliver ..).mpr (.inr hg)
    refine hlower _ ?_
    simp only [apply, deliver_frame]
    omega
  | stall c p =>
    obtain ⟨harr, hp, -⟩ := hk.leased c p ha.1
    have hh := hhonest c (hk.arrived_sub c harr) p hp
    have htmo := ha.2.2 hh
    refine hlower _ ?_
    simp only [apply, stall_frame, hh, if_true]
    omega
  | lose c p => exact absurd ha.1 (by rw [hk.chn]; exact lt_irrefl 0)
  | gain c p => exact absurd ha.1 (by rw [hk.chn]; exact lt_irrefl 0)
  | new c =>
    obtain ⟨hl, hg, hr, harr⟩ := ha
    have hcount : count sc.chunks.toFinset (· ∉ (w.m.arriveLive c).1.arrived)
        < count sc.chunks.toFinset (· ∉ w.m.arrived) := by
      refine count_lt c (List.mem_toFinset.mpr (h.live_sub c hl)) harr ?_ fun d _ hd hm => hd ?_
      · simp [hg, hr]
      · exact (mem_arrived_arriveLive ..).mpr (.inl hm)
    refine hlower _ ?_
    simp only [apply, arriveLive_frame]
    omega
  | reset c =>
    obtain ⟨-, -, -, -, ⟨p, hp⟩, -⟩ := (w.m.canResetExcluded_iff c).mp ha.2
    exact absurd hp (hbar c p)

/-- Without exclusion a run may go round for ever exactly where some chunk has a byzantine holder. -/
theorem exclude_needed (h : sc.Row) (hcfg : ∃ b, sc.cfg = { allOn b with exclude := false }) :
    Passes sc ∧ ((∃ w, Reachable sc w ∧ Relation.TransGen (Step sc) w w)
      ↔ ∃ c ∈ sc.chunks, ∃ p, sc.Holds c p ∧ ¬ sc.honest p) := by
  obtain ⟨b, hcfg⟩ := hcfg
  have hd : sc.cfg.dedup := by rw [hcfg]; rfl
  have he : ¬ sc.cfg.exclude := by rw [hcfg]; exact Bool.false_ne_true
  have hs : ¬ sc.cfg.singleSource := by rw [hcfg]; exact Bool.false_ne_true
  have hl : sc.cfg.enableLive := by rw [hcfg]; rfl
  have hf : sc.cfg.failover := by rw [hcfg]; rfl
  refine ⟨h.passes hd, ?_, ?_⟩
  · rintro ⟨w, hr, hcycle⟩
    by_contra hno
    push Not at hno
    let I : World → Prop := fun w => Reachable sc w ∧ ∀ d q, ¬ w.m.Barred d q
    have hstep : ∀ w w', I w → Step sc w w' → I w' := by
      rintro w - ⟨hr, hbar⟩ ⟨a, ha, rfl⟩
      refine ⟨hr.tail ⟨a, ha, rfl⟩, fun d q => ?_⟩
      cases a with
      | stall c p =>
        intro hb
        rcases (barred_stall ..).mp hb with ⟨⟨-, hex, -⟩, -⟩ | hb
        · exact he ((hr.kept h).cfg ▸ hex)
        · exact hbar d q hb
      | reset c => exact fun hb => hbar d q ((barred_resetExcluded ..).mp hb).2
      | _ => simpa [apply] using hbar d q
    have hI : I w := invariant_of_reachable hstep ⟨.refl, (blank_initMachine sc).unbarred⟩ hr
    refine not_transGen_self (unexcluded sc) hstep ?_ hI hcycle
    rintro w - ⟨hr, hbar⟩ ⟨a, ha, rfl⟩
    exact unexcluded_apply_lt h hd (hr.kept h) (hr.safe hd) hbar hno ((mem_enabled a).mp ha)
  · rintro ⟨c, hc, p, hp, hbyz⟩
    obtain ⟨w, hr, hclaim, -⟩ := exists_claim h hs hl hc hp
    exact ⟨w, hr, regrab (hr.kept h) hf he hclaim hbyz⟩

theorem exclude_needed_omission :
    let sc := { omission with cfg := { allOn false with exclude := false } }
    Passes sc ∧ ∃ w, Reachable sc w ∧ Relation.TransGen (Step sc) w w := by
  intro sc
  have hrow : sc.Row := by constructor <;> decide +kernel
  obtain ⟨hpass, hiff⟩ := exclude_needed hrow ⟨false, rfl⟩
  exact ⟨hpass, hiff.mpr (by decide +kernel)⟩

/-! ## Choosing the source -/

/-- A chunk whose source is no honest holder of it is never had. -/
theorem incomplete_of_unsourced (h : sc.Row) (hd : sc.cfg.dedup) (he : sc.cfg.exclude)
    (hs : sc.cfg.singleSource) (hc : c ∈ sc.chunks)
    (hno : ¬ ∃ p, lastOf sc.assign c = some p ∧ sc.Holds c p ∧ sc.honest p) : Incomplete sc := by
  refine incomplete_of_lost h hd he (fun w => c ∉ w.m.got) .refl ((blank_initMachine sc).ungot c)
    ?_ hc fun w _ hw => hw
  rintro w a hk - hw ha
  cases a with
  | deliver d q =>
    intro hn
    rcases (mem_got_deliver ..).mp hn with ⟨rfl, hlease⟩ | hn
    · exact hno ⟨q, hk.sourced hs d q hlease, (hk.leased d q hlease).2.1, ha.2⟩
    · exact hw hn
  | _ => simpa [apply] using hw

/-- A chunk whose source is barred is never had while another holder is not: nobody else is asked,
so nobody else is barred and the bars are not lifted. -/
theorem incomplete_of_barred (h : sc.Row) (hd : sc.cfg.dedup) (he : sc.cfg.exclude)
    (hs : sc.cfg.singleSource) (hr : Reachable sc w) (ha : lastOf sc.assign c = some p)
    (hc : c ∈ sc.chunks) (hq : sc.Holds c q) (hbar : w.m.Barred c p) (hopen : ¬ w.m.Barred c q)
    (hfree : ∀ r, ¬ w.m.Leased c r) (hgot : c ∉ w.m.got) : Incomplete sc := by
  refine incomplete_of_lost h hd he (fun w => w.m.Barred c p ∧ ¬ w.m.Barred c q
    ∧ (∀ r, ¬ w.m.Leased c r) ∧ c ∉ w.m.got) hr ⟨hbar, hopen, hfree, hgot⟩ ?_ hc
    fun w _ hw => hw.2.2.2
  rintro w a hk - ⟨hbp, hbq, hnone, hg⟩ hguard
  cases a with
  | want d r =>
    refine ⟨by simpa [apply] using hbp, by simpa [apply] using hbq, fun r' hlease => ?_,
      by simpa [apply] using hg⟩
    rcases (leased_wantFrom ..).mp hlease with ⟨hcl, rfl, rfl⟩ | hlease
    · obtain ⟨-, -, -, -, hbr, -, hsr, -⟩ := hk.claimable_iff.mp hcl
      rw [ha] at hsr
      exact hbr (Option.some.inj (hsr hs) ▸ hbp)
    · exact hnone r' hlease
  | deliver d r =>
    refine ⟨by simpa [apply] using hbp, by simpa [apply] using hbq,
      fun r' hlease => hnone r' ((leased_deliver ..).mp hlease).2, fun hn => ?_⟩
    rcases (mem_got_deliver ..).mp hn with ⟨rfl, hlease⟩ | hn
    · exact hnone r hlease
    · exact hg hn
  | stall d r =>
    refine ⟨(barred_stall ..).mpr (.inr hbp), fun hb => ?_,
      fun r' hlease => hnone r' ((leased_stall ..).mp hlease).2, by simpa [apply] using hg⟩
    rcases (barred_stall ..).mp hb with ⟨-, rfl, rfl⟩ | hb
    · exact hnone r hguard.1
    · exact hbq hb
  | lose d r => exact absurd hguard.1 (by rw [hk.chn]; exact lt_irrefl 0)
  | gain d r => exact absurd hguard.1 (by rw [hk.chn]; exact lt_irrefl 0)
  | new d => exact ⟨by simpa [apply] using hbp, by simpa [apply] using hbq,
      by simpa [apply] using hnone, by simpa [apply] using hg⟩
  | reset d =>
    refine ⟨(barred_resetExcluded ..).mpr ⟨?_, hbp⟩,
      fun hb => hbq ((barred_resetExcluded ..).mp hb).2, by simpa [apply] using hnone,
      by simpa [apply] using hg⟩
    rintro ⟨rfl, hcan⟩
    exact hbq (((w.m.canResetExcluded_iff d).mp hcan).2.2.2.2.2 q ((hk.held d q).mpr hq))

/-- With every chunk bound to one source a run may stay incomplete exactly where the source of some
chunk is not an honest holder of it, or some chunk has a second holder and a timeout may bar the
first. -/
theorem choice_needed (h : sc.Row) (hcfg : ∃ b, sc.cfg = { allOn b with singleSource := true }) :
    Passes sc ∧ (Incomplete sc ↔
      (∃ c ∈ sc.chunks, ¬ ∃ p, lastOf sc.assign c = some p ∧ sc.Holds c p ∧ sc.honest p)
        ∨ 0 < sc.timeoutBudget ∧ ∃ c ∈ sc.chunks, ∃ p q, p ≠ q ∧ sc.Holds c p ∧ sc.Holds c q) := by
  obtain ⟨b, hcfg⟩ := hcfg
  have hd : sc.cfg.dedup := by rw [hcfg]; rfl
  have he : sc.cfg.exclude := by rw [hcfg]; rfl
  have hs : sc.cfg.singleSource := by rw [hcfg]
  have hl : sc.cfg.enableLive := by rw [hcfg]; rfl
  have hf : sc.cfg.failover := by rw [hcfg]; rfl
  have hreset : sc.cfg.resetOnExhaust := by rw [hcfg]; rfl
  have hsource : ∀ {d p}, lastOf sc.assign d = some p → sc.Holds d p → sc.Source d p :=
    fun ha hp => ⟨hp, fun _ => ha, fun hn => absurd hl hn⟩
  refine ⟨h.passes hd, ?_, ?_⟩
  · rintro ⟨w, hr, ht, c, hc, hg⟩
    by_contra hno
    push Not at hno
    obtain ⟨hall, hsingle⟩ := hno
    refine hg (stored_of_sources h hr ht (fun _ _ _ => .inr hf) (fun hfree d hd hdg => ?_) hc)
    have hk := hr.kept h
    obtain ⟨p, ha, hp, hh⟩ := hall d (hk.arrived_sub d hd)
    refine ⟨p, hsource ha hp, fun hbar => ?_⟩
    rcases Nat.eq_zero_or_pos sc.timeoutBudget with hz | hpos
    · exact (hk.attributed hz).2 d p hbar hh
    · -- the only holder is barred, and the reset clears that
      refine not_guard_of_terminal ht (.reset d) ⟨hk.arrived_sub d hd,
        (w.m.canResetExcluded_iff d).mpr ⟨by rw [hk.cfg]; exact hreset, hd, hdg, hk.unleased hfree d,
          ⟨p, hbar⟩, fun q hq => ?_⟩⟩
      by_contra hqb
      have hne : p ≠ q := fun heq => hqb (heq ▸ hbar)
      exact hsingle hpos d (hk.arrived_sub d hd) p q hne hp ((hk.held d q).mp hq)
  · rintro (⟨c, hc, hno⟩ | ⟨hpos, c, hc, p₁, p₂, hne, hp₁, hp₂⟩)
    · exact incomplete_of_unsourced h hd he hs hc hno
    · by_cases hall : ∀ c ∈ sc.chunks,
          ∃ p, lastOf sc.assign c = some p ∧ sc.Holds c p ∧ sc.honest p
      · obtain ⟨p, ha, hp, hh⟩ := hall c hc
        obtain ⟨q, hq, hpq⟩ : ∃ q, sc.Holds c q ∧ q ≠ p := by
          by_cases heq : p₁ = p
          · exact ⟨p₂, hp₂, fun h => hne (heq.trans h.symm)⟩
          · exact ⟨p₁, hp₁, heq⟩
        obtain ⟨w, hr, harr, hgot, hfree, hbar, htmo⟩ := exists_arrived hc
        have hk := hr.kept h
        obtain ⟨w₁, hrun₁, hclear, hclaim⟩ := exists_cleared h hk hfree (fun d hd _ => by
            obtain ⟨r, har, hr, hhr⟩ := hall d (hk.arrived_sub d hd)
            exact ⟨r, hsource har hr, hhr⟩)
          (fun d _ q => hbar d q) harr (hgot c) (hsource ha hp) (hbar c p)
        -- the source misses, and the other holder never will
        obtain ⟨w₂, hrun₂, hfree₂, hbar₂, -, hgot₂, -⟩ := exists_barred hf he (hk.reaches h hrun₁)
          hclaim hclear.free fun _ => by rw [hclear.tmo, htmo]; exact hpos
        refine incomplete_of_barred h hd he hs ((hr.trans hrun₁).trans hrun₂) ha hc hq
          ((hbar₂ c p).mpr (.inl ⟨rfl, rfl⟩)) (fun hb => ?_) (hfree₂ c) ?_
        · rcases (hbar₂ c q).mp hb with ⟨-, heq⟩ | hb
          · exact hpq heq.symm
          · exact hbar c q (hclear.barred ▸ hb)
        · rw [hgot₂, hclear.got]
          exact hgot c
      · push Not at hall
        obtain ⟨d, hdc, hno⟩ := hall
        refine incomplete_of_unsourced h hd he hs hdc ?_
        rintro ⟨r, har, hr, hhr⟩
        exact hno r har hr hhr

theorem choice_needed_omission :
    let sc := { omission with
      cfg := { allOn false with singleSource := true }, assign := [(1, 3), (2, 2), (3, 1)] }
    Passes sc ∧ Incomplete sc := by
  intro sc
  have hrow : sc.Row := by constructor <;> decide +kernel
  obtain ⟨hpass, hiff⟩ := choice_needed hrow ⟨false, rfl⟩
  exact ⟨hpass, hiff.mpr (.inl ⟨1, by decide, by decide +kernel⟩)⟩

/-! ## Live arrivals -/

/-- With live arrivals not pulled every run comes to its end with exactly the live chunks missing. -/
theorem live_needed (h : sc.Row) (hcfg : sc.cfg = { allOn false with enableLive := false }) :
    Passes sc ∧ (∀ w, Reachable sc w → ∃ w', Relation.ReflTransGen (Step sc) w w' ∧ enabled sc w' = [])
      ∧ ∀ w, Reachable sc w → enabled sc w = [] → ∀ c ∈ sc.chunks, c ∈ w.m.got ↔ c ∉ sc.live := by
  have hd : sc.cfg.dedup := by rw [hcfg]; rfl
  have he : sc.cfg.exclude := by rw [hcfg]; rfl
  have hs : ¬ sc.cfg.singleSource := by rw [hcfg]; exact Bool.false_ne_true
  have hl : ¬ sc.cfg.enableLive := by rw [hcfg]; exact Bool.false_ne_true
  have hf : sc.cfg.failover := by rw [hcfg]; rfl
  have hreset : sc.cfg.resetOnExhaust := by rw [hcfg]; rfl
  have hprio : sc.cfg.priority = false := by rw [hcfg]; rfl
  refine ⟨h.passes hd, fun w hr => exists_terminal h hd he hr, fun w hr ht c hc => ⟨?_, ?_⟩⟩
  · refine fun hg hlive => ?_
    revert hg
    refine (invariant_of_reachable (I := fun w => Reachable sc w ∧ c ∉ w.m.got) ?_
      ⟨.refl, (blank_initMachine sc).ungot c⟩ hr).2
    rintro w - ⟨hr, hg⟩ ⟨a, ha, rfl⟩
    refine ⟨hr.tail ⟨a, ha, rfl⟩, ?_⟩
    cases a with
    | deliver d q =>
      intro hn
      rcases (mem_got_deliver ..).mp hn with ⟨rfl, hlease⟩ | hn
      · exact (hr.kept h).pulled hl d q hlease hlive
      · exact hg hn
    | _ => simpa [apply] using hg
  · intro hlive
    have hk := hr.kept h
    have hno := not_guard_of_terminal ht
    have hfree := free_of_terminal h hr ht fun _ _ _ => .inr hf
    by_contra hg
    have harr := (hk.arrives c hc).resolve_right hlive
    obtain ⟨p, hp, -⟩ := h.supplied c hc
    by_cases hbar : ∃ p, sc.Holds c p ∧ ¬ w.m.Barred c p
    · obtain ⟨p, hp, hb⟩ := hbar
      refine hno (.want c p) (hk.claimable_iff.mpr ⟨harr, hp, hg, hfree c p, hb,
        fun _ => hk.unleased hfree c, fun hs' => absurd hs' hs, fun _ => hlive,
        (w.m.prioOk_iff c).mpr fun hp' => ?_⟩)
      rw [hk.cfg, hprio] at hp'
      cases hp'
    · push Not at hbar
      exact hno (.reset c) ⟨hc, (w.m.canResetExcluded_iff c).mpr ⟨by rw [hk.cfg]; exact hreset, harr,
        hg, hk.unleased hfree c, ⟨p, hbar p hp⟩, fun q hq => hbar q ((hk.held c q).mp hq)⟩⟩

theorem live_needed_row :
    let sc := { scenario with cfg := { allOn false with enableLive := false }, live := [3] }
    Passes sc ∧ (∀ w, Reachable sc w → ∃ w', Relation.ReflTransGen (Step sc) w w' ∧ enabled sc w' = [])
      ∧ ∀ w, Reachable sc w → enabled sc w = [] → ∀ c ∈ sc.chunks, c ∈ w.m.got ↔ c ∉ sc.live := by
  intro sc
  have hrow : sc.Row := by constructor <;> decide +kernel
  exact live_needed hrow rfl

/-! ## Dedup -/

/-- What the checks say of a row without dedup: a claim is on a holder that is not barred, and only
the deliveries can go wrong. -/
theorem Kept.checkInvariants (hk : Kept sc w) (hd : ¬ sc.cfg.dedup) :
    w.m.checkInvariants = if w.m.conflict then .error "ConflictFree"
      else if w.m.ndeliv + w.m.npre ≠ w.m.got.size then .error "DeliveryFloor" else .ok () := by
  have hdedup : w.m.cfg.dedup = false := by
    rw [hk.cfg]
    simpa using hd
  have hlive : ∀ e ∈ w.m.want.toList, ∀ p ∈ e.2, w.m.Held e.1 p ∧ ¬ w.m.Barred e.1 p := by
    intro e he p hp
    obtain ⟨-, hheld, hbar⟩ := hk.leased e.1 p ((setContains_iff_mem_toList _ _ _).mpr ⟨e.2, he, hp⟩)
    exact ⟨(hk.held _ _).mpr hheld, hbar⟩
  have hclaims : ¬ (w.m.want.toList.any fun e => e.2.toList.any fun p =>
      !setContains w.m.holders e.1 p || setContains w.m.excluded e.1 p) := by
    simp only [List.any_eq_true, not_exists, not_and, ExtTreeSet.mem_toList]
    intro e he p hp
    simpa [Held, Barred] using hlive e he p hp
  unfold PullState.checkInvariants
  rw [hdedup, Bool.false_and, if_neg Bool.false_ne_true, if_neg hclaims]

/-- Until a delivery is latched twice, every delivery is counted. -/
theorem counted_or_conflict (hr : Reachable sc w) :
    w.m.conflict = true ∨ w.m.ndeliv + w.m.npre = w.m.got.size := by
  have hb := blank_initMachine sc
  refine invariant_of_reachable
    (I := fun w => w.m.conflict = true ∨ w.m.ndeliv + w.m.npre = w.m.got.size) ?_ ?_ hr
  · rintro w - hi ⟨a, -, rfl⟩
    rw [apply_m]
    by_cases hdouble : ∃ c p, a.call = .deliver c p ∧ w.m.Leased c p ∧ c ∈ w.m.got
    · obtain ⟨c, p, ha, hl, hg⟩ := hdouble
      have hl' : setContains w.m.want c p = true := hl
      rw [ha]
      exact .inl (by simp [PullState.act, PullState.deliver, hl', hg])
    · rcases hi with hi | hi
      · left
        cases a <;> simp [Act.call, PullState.act, hi]
        simp only [PullState.deliver]
        split <;> simp [hi]
      · by_cases hc : w.m.conflict
        · left
          cases a <;> simp [Act.call, PullState.act, hc]
          simp only [PullState.deliver]
          split <;> simp [hc]
        · refine .inr (Counted.act ⟨by simpa using hc, hi⟩ fun c p ha hl hg => ?_).floor
          exact hdouble ⟨c, p, ha, hl, hg⟩
  · right
    change (initMachine sc).ndeliv + (initMachine sc).npre = (initMachine sc).got.size
    have hempty : (initMachine sc).got = ∅ := ExtTreeSet.ext_mem fun {c} => by simp [hb.ungot c]
    rw [hb.ndeliv, hb.npre, hempty]
    rfl

/-- Where no chunk has two honest holders, nothing is delivered twice even without dedup. -/
theorem unconflicted (h : sc.Row) (hr : Reachable sc w)
    (hone : ∀ c ∈ sc.chunks, ∀ p q, sc.Holds c p → sc.Holds c q → sc.honest p → sc.honest q → p = q) :
    w.m.conflict = false ∧ ∀ c p, w.m.Leased c p → sc.honest p → c ∉ w.m.got := by
  have hb := blank_initMachine sc
  refine (invariant_of_reachable (I := fun w => Reachable sc w ∧ w.m.conflict = false
    ∧ ∀ c p, w.m.Leased c p → sc.honest p → c ∉ w.m.got) ?_
    ⟨.refl, hb.noConflict, fun c p hl => absurd hl (hb.unleased c p)⟩ hr).2
  rintro w - ⟨hr, hconf, hopen⟩ ⟨a, ha, rfl⟩
  have hk := hr.kept h
  refine ⟨hr.tail ⟨a, ha, rfl⟩, ?_⟩
  have hguard := (mem_enabled a).mp ha
  cases a with
  | want c p =>
    refine ⟨by simpa [apply] using hconf, fun d q hl hq => ?_⟩
    rcases (leased_wantFrom ..).mp hl with ⟨hcl, rfl, rfl⟩ | hl
    · simpa [apply] using (hk.claimable_iff.mp hcl).2.2.1
    · simpa [apply] using hopen d q hl hq
  | deliver c p =>
    obtain ⟨hl, hp⟩ := hguard
    have hl' : setContains w.m.want c p = true := hl
    refine ⟨by simp [apply, PullState.deliver, hl', hconf, hopen c p hl hp], fun d q hd hq hg => ?_⟩
    obtain ⟨hne, hd⟩ := (leased_deliver ..).mp hd
    rcases (mem_got_deliver ..).mp hg with ⟨rfl, -⟩ | hg
    · -- the only honest holder has just been answered
      obtain ⟨harr, hcp, -⟩ := hk.leased c p hl
      exact hne ⟨rfl, hone c (hk.arrived_sub c harr) p q hcp (hk.leased c q hd).2.1 hp hq⟩
    · exact hopen d q hd hq hg
  | stall c p =>
    refine ⟨by simpa [apply] using hconf, fun d q hd hq => ?_⟩
    simpa [apply] using hopen d q ((leased_stall ..).mp hd).2 hq
  | lose c p => exact absurd hguard.1 (by rw [hk.chn]; exact lt_irrefl 0)
  | gain c p => exact absurd hguard.1 (by rw [hk.chn]; exact lt_irrefl 0)
  | new c => exact ⟨by simpa [apply] using hconf, by simpa [apply] using hopen⟩
  | reset c => exact ⟨by simpa [apply] using hconf, by simpa [apply] using hopen⟩

/-- Without dedup two honest holders may both be asked, and both answer. -/
theorem exists_conflict (hk : Kept sc w) (hd : ¬ sc.cfg.dedup) (hs : ¬ sc.cfg.singleSource)
    (hl : sc.cfg.enableLive) (hclaim : w.m.claimable c p) (hfree : ∀ d q, ¬ w.m.Leased d q)
    (hbar : ∀ d q, ¬ w.m.Barred d q) (hq : sc.Holds c q) (hne : p ≠ q) (hp : sc.honest p)
    (hqh : sc.honest q) : ∃ w', Relation.ReflTransGen (Step sc) w w' ∧ w'.m.conflict = true := by
  obtain ⟨harr, -, hg, -, -, -, -, -, hprio⟩ := (w.m.claimable_iff c p).mp hclaim
  have hleased : ∀ d r, (apply sc w (.want c p)).m.Leased d r ↔ c = d ∧ p = r := fun d r => by
    have := w.m.leased_wantFrom c d p r
    simp only [hclaim, hfree, or_false, true_and] at this
    exact this
  -- the second claim is open after the first
  have hclaim' : (apply sc w (.want c p)).m.claimable c q := by
    refine (PullState.claimable_iff ..).mpr ⟨by simpa [apply] using harr, ?_, by simpa [apply] using hg,
      fun hn => hne ((hleased c q).mp hn).2, by simpa [apply] using hbar c q, fun hd' => ?_,
      fun hs' => ?_, fun _ => ?_, ?_⟩
    · simpa [apply] using (hk.held c q).mpr hq
    · exact absurd hd' (by simpa [apply, hk.cfg] using hd)
    · exact absurd hs' (by simpa [apply, hk.cfg] using hs)
    · simpa [apply, hk.cfg] using hl
    · rw [prioOk_iff] at hprio ⊢
      intro hon d hd'
      have hold := hprio (by simpa [apply] using hon) d (by simpa [apply] using hd')
      have hprios : ∀ e, (apply sc w (.want c p)).m.prioOf e = w.m.prioOf e := fun e => by
        simp [PullState.prioOf, apply]
      rw [hprios, hprios]
      rcases hold with hle | hn | ha
      · exact .inl hle
      · rw [PullState.eligible_iff] at hn
        refine .inr (.inl fun he => hn ?_)
        simpa [apply, PullState.eligible_iff] using he
      · rw [PullState.addressed_iff] at ha
        refine .inr (.inr ((PullState.addressed_iff ..).mpr ?_))
        refine ha.imp (fun hg => by simpa [apply] using hg) fun hw => ?_
        obtain ⟨r, hr⟩ := (hk.normal.want.mem_iff d).mp hw
        exact Leased.mem_want ((leased_wantFrom ..).mpr (.inr hr))
  let w₁ := apply sc w (.want c p)
  let w₂ := apply sc w₁ (.want c q)
  let w₃ := apply sc w₂ (.deliver c p)
  have hp₂ : w₂.m.Leased c p := (leased_wantFrom ..).mpr (.inr ((hleased c p).mpr ⟨rfl, rfl⟩))
  have hq₂ : w₂.m.Leased c q := (leased_wantFrom ..).mpr (.inl ⟨hclaim', rfl, rfl⟩)
  have hq₃ : w₃.m.Leased c q := (leased_deliver ..).mpr ⟨fun hn => hne hn.2, hq₂⟩
  have hg₃ : c ∈ w₃.m.got := (mem_got_deliver ..).mpr (.inl ⟨rfl, hp₂⟩)
  refine ⟨apply sc w₃ (.deliver c q), .head (step_of_guard (.want c p) hclaim)
    (.head (step_of_guard (w := w₁) (.want c q) hclaim')
      (.head (step_of_guard (w := w₂) (.deliver c p) ⟨hp₂, hp⟩)
        (.single (step_of_guard (w := w₃) (.deliver c q) ⟨hq₃, hqh⟩)))), ?_⟩
  have hq₃' : setContains w₃.m.want c q = true := hq₃
  change (w₃.m.deliver c q).1.conflict = true
  simp [PullState.deliver, hq₃', hg₃]

/-- Without dedup the only check that can fail is the one against double deliveries, and it does in
some run exactly where some chunk has two honest holders. -/
theorem dedup_needed (h : sc.Row) (hcfg : ∃ b, sc.cfg = { allOn b with dedup := false }) :
    (∀ w, Reachable sc w → checkEnvInvariants sc w = .ok ()
        ∨ checkEnvInvariants sc w = .error "ConflictFree")
      ∧ ((∃ w, Reachable sc w ∧ checkEnvInvariants sc w = .error "ConflictFree")
        ↔ ∃ c ∈ sc.chunks, ∃ p q, p ≠ q ∧ sc.Holds c p ∧ sc.Holds c q
          ∧ sc.honest p ∧ sc.honest q) := by
  obtain ⟨b, hcfg⟩ := hcfg
  have hd : ¬ sc.cfg.dedup := by rw [hcfg]; exact Bool.false_ne_true
  have hs : ¬ sc.cfg.singleSource := by rw [hcfg]; exact Bool.false_ne_true
  have hl : sc.cfg.enableLive := by rw [hcfg]; rfl
  have hfails : ∀ w, Reachable sc w → w.m.conflict = true →
      checkEnvInvariants sc w = .error "ConflictFree" := fun w hr hc => by
    rw [checkEnvInvariants, (hr.kept h).checkInvariants hd, if_pos hc]
    rfl
  have hpasses : ∀ w, Reachable sc w → w.m.conflict = false → checkEnvInvariants sc w = .ok () := by
    intro w hr hc
    have hcount := (counted_or_conflict hr).resolve_left (by simp [hc])
    refine (hr.kept h).checkEnvInvariants h ?_
    rw [(hr.kept h).checkInvariants hd, if_neg (by simp [hc]), if_neg (by simpa using hcount)]
  refine ⟨fun w hr => ?_, ?_, ?_⟩
  · cases hc : w.m.conflict with
    | false => exact .inl (hpasses w hr hc)
    | true => exact .inr (hfails w hr hc)
  · rintro ⟨w, hr, hfail⟩
    by_contra hno
    push Not at hno
    have hc := (unconflicted h hr fun c hc p q hp hq hph hqh => by
      by_contra hne
      exact hno c hc p q hne hp hq hph hqh).1
    rw [hpasses w hr hc] at hfail
    cases hfail
  · rintro ⟨c, hc, p, q, hne, hp, hq, hph, hqh⟩
    obtain ⟨w, hr, hclaim, hfree, hbar, -⟩ := exists_claim h hs hl hc hp
    obtain ⟨w', hrun, hconf⟩ := exists_conflict (hr.kept h) hd hs hl hclaim hfree hbar hq hne hph hqh
    exact ⟨w', hr.trans hrun, hfails w' (hr.trans hrun) hconf⟩

theorem dedup_needed_row :
    let sc := { scenario with cfg := { allOn false with dedup := false } }
    ∃ w, Reachable sc w ∧ checkEnvInvariants sc w = .error "ConflictFree" := by
  intro sc
  have hrow : sc.Row := by constructor <;> decide +kernel
  exact (dedup_needed hrow ⟨false, rfl⟩).2.mpr ⟨1, by decide, 1, 2, by decide +kernel⟩

end Melissi.Machine.Explore
