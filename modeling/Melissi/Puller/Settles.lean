import Melissi.Puller.Converge
import Melissi.Settlement.IntervalSettlement

/-!
# The puller refines interval settlement

The intervals of a node, its reserve and what it has rejected are the variables of
`IntervalSettlement`, over the logs of the setting. One event may store and reject several triples
and advance several intervals: it is a run of the specification, in which every triple settles while
some log still offers it and every interval advances over what has settled. Logs that have grown
allow every step that they allowed before.
-/

namespace Melissi.Puller

open Melissi.Common Melissi.Machine Melissi.Machine.PullState Melissi.Settlement Melissi.Node
open IntervalSettlement (Instance Vars Next Visible Passable)
open Std (ExtTreeMap ExtTreeSet)

variable {C : Type} [LinearOrder C]

/-- The specification over the logs of the setting, with both choices made. -/
def Setting.rule (S : Setting C) (logs : PeerBin → AppendLog C) : Instance {k // k ∈ S.keys} C where
  log k := logs k
  bad := {c | S.bad c}
  settledOnly := true
  rejectSettles := true

/-- What the specification sees of a node. -/
def settling (S : Setting C) (n : Node C) : Vars {k // k ∈ S.keys} C where
  intv k := (n.log k).interval
  stored := {c | c ∈ n.m.got}
  rejected := {c | c ∈ n.m.rejected}

variable {S : Setting C} {w w' : World C}

theorem settling_init (S : Setting C) (logs : PeerBin → AppendLog C) (appends ticks misses : ℕ) :
    settling S (World.init S logs appends ticks misses).node
      = IntervalSettlement.init {c | c ∈ S.held} := by
  have hf := start_frame Config.production S.radius S.policy S.held
  have hm := start_machine_frame Config.production S.radius S.policy S.held
  rw [settling, IntervalSettlement.init, Vars.mk.injEq]
  refine ⟨?_, ?_, ?_⟩
  · funext k
    rw [World.init, World.node, Shell.start, log, hf.2.2.2.2.1]
    simp
  · ext c
    exact mem_got_start _ _ _ _ c
  · ext c
    rw [Set.mem_ofPred_eq, World.init, World.node, Shell.start, hm.2.2.2.2.2.1]
    simp

/-! ## Steps over the same logs -/

/-- What the node has not settled, and some log names, is still offered above an interval. -/
theorem Covered.visible (h : Covered S w) {c : C} (hc : Logged S w c) (hs : ¬ Settled w.node c) :
    Visible (S.rule w.logs) (settling S w.node) c := by
  obtain ⟨k, hk, b, hb⟩ := hc
  exact ⟨⟨k, hk⟩, b, hb, Nat.lt_of_not_le fun hle => hs ((h.tracks k).settled_of_le hb hle)⟩

/-- What a pending fetch wants is not settled, and some log names it. -/
theorem Sound.wanted (h : Sound S w) {p : PeerId} {b : Bin} {want : List C}
    (hp : .fetch p b want ∈ w.pending) {c : C} (hc : c ∈ want) :
    Logged S w c ∧ ¬ Settled w.node c := by
  have hleased := h.account.accounted.leased p b want hp c hc
  have harr := h.account.safe.claims.arrived _ _ hleased
  exact ⟨h.covered.arrived c harr, fun hs => hs.elim
    (h.account.safe.claims.unstored _ _ hleased) (h.account.safe.claims.unrejected _ harr)⟩

/-- What a move stores or rejects was offered before it, and is stored if it is good. -/
theorem Sound.settles (h : Sound S w) {mv : Move C} (hf : Fits S w mv) {c : C} :
    (c ∈ (w.node.handle mv.event).1.m.got → c ∉ w.node.m.got →
        ¬ S.bad c ∧ Visible (S.rule w.logs) (settling S w.node) c)
      ∧ (c ∈ (w.node.handle mv.event).1.m.rejected → c ∉ w.node.m.rejected →
        S.bad c ∧ Visible (S.rule w.logs) (settling S w.node) c) := by
  by_cases hr : endsInRound mv.event
  · rw [w.node.handle_eq_round hr, (settled_round _).1, (settled_round _).2.1]
    cases mv with
    | peerGone q => exact hf.elim
    | offer q b start refs topmost =>
      have hframe := w.node.answerOffer_machine_frame ⟨q, b⟩ start refs topmost
      rw [Move.event, ingested, hframe.2.2.1, hframe.2.2.2.1]
      exact ⟨fun hc hn => absurd hc hn, fun hc hn => absurd hc hn⟩
    | fetch q b want outcomes =>
      obtain ⟨hp, hperm, hbad⟩ := hf
      have hvis : ∀ o, (c, o) ∈ outcomes → Visible (S.rule w.logs) (settling S w.node) c :=
        fun o he => by
          obtain ⟨hl, hs⟩ := h.wanted hp (hperm.subset (List.mem_map.mpr ⟨_, he, rfl⟩))
          exact h.covered.visible hl hs
      refine ⟨fun hc hn => ?_, fun hc hn => ?_⟩
      · have he := (mem_got_reported hc).resolve_left hn
        exact ⟨fun hb => by simpa using (hbad _ he).mpr hb, hvis _ he⟩
      · have he := (mem_rejected_reported hc).resolve_left hn
        exact ⟨(hbad _ he).mp rfl, hvis _ he⟩
    | _ => cases hr
  · rw [(w.node.quiet_handle hr).m]
    exact ⟨fun hc hn => absurd hc hn, fun hc hn => absurd hc hn⟩

/-- An interval stays, or advances over what has settled. -/
theorem Sound.passable (h' : Sound S w') {mv : Move C} (hf : Fits S w mv)
    (hw : w'.shell = w.shell.next mv) (hl : w'.logs = w.logs) (k : {k // k ∈ S.keys}) :
    (settling S w'.node).intv k = (settling S w.node).intv k
      ∨ Passable (S.rule w.logs) ⟨(settling S w.node).intv, (settling S w'.node).stored,
        (settling S w'.node).rejected⟩ k ((settling S w'.node).intv k) := by
  have hgone : mv.event ≠ .peerGone k.1.peer := by
    cases mv with
    | peerGone p => exact hf.elim
    | _ => simp [Move.event]
  have hmono : (w.node.log k).interval ≤ (w'.node.log k).interval := by
    rw [World.node_move hw]
    exact interval_handle hgone
  have htracks := h'.covered.tracks k
  rw [hl] at htracks
  rcases Nat.eq_or_lt_of_le hmono with heq | hlt
  · exact .inl heq.symm
  · refine .inr ⟨hlt, (w'.node.log k).interval_le.trans htracks.le_head, fun _ b c hb _ hle => ?_⟩
    exact (htracks.settled_of_le hb hle).imp id fun hr => ⟨rfl, hr⟩

theorem finite_settling (S : Setting C) (n : Node C) :
    (settling S n).stored.Finite ∧ (settling S n).rejected.Finite := by
  have hset : ∀ t : ExtTreeSet C, {c | c ∈ t}.Finite := fun t =>
    t.toList.finite_toSet.subset fun c hc => ExtTreeSet.mem_toList.mpr hc
  exact ⟨hset n.m.got, hset n.m.rejected⟩

/-- A move is a run of the specification. -/
theorem Sound.reaches (h : Sound S w) (h' : Sound S w') (mv : Move C) (hf : Fits S w mv)
    (hw : w'.shell = w.shell.next mv) (hl : w'.logs = w.logs) :
    Relation.ReflTransGen (Next (S.rule w.logs)) (settling S w.node) (settling S w'.node) := by
  have hmono := (w.node.calls_handle mv.event).settled_mono
  have hsettles := fun c => h.settles hf (c := c)
  rw [← World.node_move hw] at hmono hsettles
  exact IntervalSettlement.reaches_of_settled hmono.1 hmono.2 (finite_settling S w'.node)
    (fun c hc => (hsettles c).1 hc.1 hc.2) (fun c hc => (hsettles c).2 hc.1 hc.2)
    (h'.passable hf hw hl)

/-! ## Logs that grow -/

/-- What may happen over a log may happen over the log that has grown. -/
theorem next_append {k : PeerBin} {b : ℕ} {c : C} (hb : (w.logs k).head < b)
    {s s' : Vars {k // k ∈ S.keys} C} (h : Next (S.rule w.logs) s s') :
    Next (S.rule (Function.update w.logs k ((w.logs k).append b c hb))) s s' := by
  -- the old entries stand, and nothing new stands at or below an old head
  have hold : ∀ k', (w.logs k').head ≤ (Function.update w.logs k ((w.logs k).append b c hb) k').head
      ∧ ∀ e, e ∈ (w.logs k').entries
        ∨ (w.logs k').head < e.1 ∧ e ∈ (Function.update w.logs k ((w.logs k).append b c hb) k').entries
        ↔ e ∈ (Function.update w.logs k ((w.logs k).append b c hb) k').entries := by
    intro k'
    by_cases hk : k' = k
    · subst hk
      simp only [Function.update_self, AppendLog.head_append, AppendLog.mem_append]
      refine ⟨hb.le, fun e => ⟨fun h => h.elim .inl And.right, fun h => h.imp_right ?_⟩⟩
      rintro rfl
      exact ⟨hb, .inr rfl⟩
    · simp only [Function.update_of_ne hk]
      exact ⟨le_rfl, fun e => ⟨fun h => h.elim id And.right, .inl⟩⟩
  have hvis : ∀ d, Visible (S.rule w.logs) s d →
      Visible (S.rule (Function.update w.logs k ((w.logs k).append b c hb))) s d := by
    rintro d ⟨p, i, hi, hlt⟩
    exact ⟨p, i, ((hold p).2 (i, d)).mp (.inl hi), hlt⟩
  obtain ⟨a, ha⟩ := h
  refine ⟨a, ?_⟩
  cases a with
  | store d =>
    obtain ⟨hgood, hnew, hv, rfl⟩ := ha
    exact ⟨hgood, hnew, hvis d hv, rfl⟩
  | reject d =>
    obtain ⟨hbad, hnew, hv, rfl⟩ := ha
    exact ⟨hbad, hnew, hvis d hv, rfl⟩
  | advance p =>
    obtain ⟨x, ⟨hlt, hx, hset⟩, rfl⟩ := ha
    refine ⟨x, ⟨hlt, hx.trans (hold p).1, fun hg i d hi hpos hle => ?_⟩, rfl⟩
    refine hset hg i d ?_ hpos hle
    refine (((hold p).2 (i, d)).mpr hi).resolve_right fun hn => ?_
    have : (w.logs p).head < i := hn.1
    exact absurd (hle.trans hx) (Nat.not_le.mpr this)

/-- What the specification may do before a step of the puller it may do after it. -/
theorem next_step (hs : Step S w w') {s s' : Vars {k // k ∈ S.keys} C}
    (h : Next (S.rule w.logs) s s') : Next (S.rule w'.logs) s s' := by
  rcases hs with hs | hs
  · cases hs <;> exact h
  · cases hs with
    | tick => exact h
    | append hk hb => exact next_append hb h

/-- Every step of a run is a run of the specification over the logs as they stand after it. -/
theorem Sound.reaches_step (h : Sound S w) (hs : Step S w w') :
    Relation.ReflTransGen (Next (S.rule w'.logs)) (settling S w.node) (settling S w'.node) := by
  have h' := h.step hs
  rcases hs with hs | hs
  · cases hs with
    | announce hp => exact h.reaches h' (.peerSeen _) (h.unseen _ hp) rfl rfl
    | cursors hp => exact h.reaches h' (.cursors _ _) ⟨hp, bins_cursors S _ _⟩ rfl rfl
    | offer hp hpage => exact h.reaches h' (.offer ..) ⟨hp, _, hpage, rfl, rfl⟩ rfl rfl
    | fetch hp hperm hbad => exact h.reaches h' (.fetch ..) ⟨hp, hperm, hbad⟩ rfl rfl
  · cases hs with
    | tick => exact h.reaches h' .tick trivial rfl rfl
    | append hk hb => exact .refl

/-! ## Runs -/

/-- A run of the puller is a run of the specification over the logs as they stand at its end. -/
theorem reaches_of_reachable {logs : PeerBin → AppendLog C} {appends ticks misses : ℕ}
    (h : Reachable S logs appends ticks misses w) :
    Relation.ReflTransGen (Next (S.rule w.logs)) (IntervalSettlement.init {c | c ∈ S.held})
      (settling S w.node) := by
  induction h with
  | refl =>
    rw [settling_init]
  | tail hrun hs ih =>
    exact (Relation.ReflTransGen.mono (fun _ _ => next_step hs) _ _ ih).trans
      ((sound_of_reachable hrun).reaches_step hs)

/-- A quiescent puller leaves the specification no step. -/
theorem Quiescent.ended (hq : Quiescent S w) (h : Sound S w) :
    ∀ s, ¬ Next (S.rule w.logs) (settling S w.node) s :=
  IntervalSettlement.ended_of_head fun k => (hq.caught h k).trans (hq.topmost h k.2)

/-- The puller refines interval settlement: from any logs and with any budgets, over any order of
announcements, answers, ticks and appends, what it has stored, rejected and covered is reached by the
specification over the logs as they stand, every step is a run of the specification, and the puller
comes to rest only where the specification has no step left. -/
theorem puller_refines_settlement (S : Setting C) (logs : PeerBin → AppendLog C)
    (appends ticks misses : ℕ) :
    (∀ w, Reachable S logs appends ticks misses w →
        Relation.ReflTransGen (Next (S.rule w.logs)) (IntervalSettlement.init {c | c ∈ S.held})
          (settling S w.node))
      ∧ (∀ w w', Reachable S logs appends ticks misses w → Step S w w' →
        Relation.ReflTransGen (Next (S.rule w'.logs)) (settling S w.node) (settling S w'.node))
      ∧ ∀ w, Reachable S logs appends ticks misses w → Quiescent S w →
        ∀ s, ¬ Next (S.rule w.logs) (settling S w.node) s :=
  ⟨fun _ h => reaches_of_reachable h, fun _ _ h hs => (sound_of_reachable h).reaches_step hs,
    fun _ h hq => hq.ended (sound_of_reachable h)⟩

end Melissi.Puller
