import Melissi.Puller.Sound

/-!
# Convergence and confluence of one puller

The rank of a world is lexicographic: what may still happen and be announced, then the misses and
the unsettled entries of the logs, then the entries past what is covered, then the offers that start
at or below it. Every step lowers it, so no run is infinite; and a quiescent world holds exactly
what the logs determine, in whatever order the answers came.
-/

namespace Melissi.Puller

open Melissi.Common Melissi.Machine Melissi.Machine.PullState Melissi.Settlement Melissi.Node
open Std (ExtTreeMap ExtTreeSet)

variable {C : Type} [LinearOrder C]

/-! ## The rank -/

/-- The entries of the setting's logs. -/
def standing (S : Setting C) (w : World C) : Finset (PeerBin × ℕ × C) :=
  (S.keys.flatMap fun k => (w.logs k).entries.map fun e => (k, e)).toFinset

theorem mem_standing (S : Setting C) (w : World C) (k : PeerBin) (b : ℕ) (c : C) :
    (k, b, c) ∈ standing S w ↔ k ∈ S.keys ∧ (b, c) ∈ (w.logs k).entries := by
  simp only [standing, List.mem_toFinset, List.mem_flatMap, List.mem_map, Prod.mk.injEq]
  constructor
  · rintro ⟨k', hk', e, he, rfl, rfl⟩
    exact ⟨hk', he⟩
  · exact fun h => ⟨k, h.1, (b, c), h.2, rfl, rfl⟩

theorem standing_congr (S : Setting C) {w w' : World C} (h : w'.logs = w.logs) :
    standing S w' = standing S w := by
  rw [standing, standing, h]

/-- A request for cursors. -/
def asksCursors : Effect C → Bool
  | .getCursors _ => true
  | _ => false

/-- An offer that starts at or below what is covered. -/
def behind (n : Node C) : Effect C → Bool
  | .offer p b start => decide (start ≤ (n.log ⟨p, b⟩).topmost)
  | _ => false

/-- What can still happen and be announced. -/
def budget (w : World C) : ℕ :=
  w.ticks + w.appends + 2 * w.unseen.length + w.pending.countP asksCursors

/-- The misses left, and the entries still to settle. -/
noncomputable def unsettled (S : Setting C) (w : World C) : ℕ :=
  w.misses + count (standing S w) fun e => ¬ Settled w.node e.2.2

/-- The entries past what is covered. -/
noncomputable def uncovered (S : Setting C) (w : World C) : ℕ :=
  count (standing S w) fun e => (w.node.log e.1).topmost < e.2.1

noncomputable def rank (S : Setting C) (w : World C) : ℕ ×ₗ ℕ ×ₗ ℕ ×ₗ ℕ :=
  toLex (budget w, toLex (unsettled S w, toLex (uncovered S w, w.pending.countP (behind w.node))))

/-- A smaller budget is a smaller rank. -/
theorem rank_lt_of_budget {S : Setting C} {w w' : World C} (h : budget w' < budget w) :
    rank S w' < rank S w :=
  Prod.Lex.toLex_lt_toLex.mpr (.inl h)

/-! ## What is pending after a move -/

theorem countP_next {S : Setting C} {w : World C} {mv : Move C} (hf : Fits S w mv)
    (q : Effect C → Bool) :
    (w.shell.next mv).pending.countP q + mv.answered.toList.countP q
      = w.shell.pending.countP q + (w.node.handle mv.event).2.countP q := by
  have hrest := countP_rest hf.answered q
  change (w.shell.rest mv ++ (w.node.handle mv.event).2).countP q + _ = _
  rw [List.countP_append]
  omega

/-- A move that announces no peer asks for no cursors. -/
theorem asked_next {S : Setting C} {w : World C} {mv : Move C} (hf : Fits S w mv)
    (hseen : ∀ p, mv.event ≠ .peerSeen p) :
    (w.shell.next mv).pending.countP asksCursors + mv.answered.toList.countP asksCursors
      = w.shell.pending.countP asksCursors := by
  have hnone : (w.node.handle mv.event).2.countP asksCursors = 0 := by
    rw [List.countP_eq_zero]
    intro fx hfx ha
    cases fx with
    | getCursors p => exact getCursors_not_mem_handle w.node hseen p hfx
    | _ => cases ha
  rw [countP_next hf, hnone, Nat.add_zero]

/-- An announced peer is asked for its cursors at most once. -/
theorem asked_announced {S : Setting C} {w : World C} {p : PeerId} (hp : p ∈ S.peers) :
    (w.shell.next (.peerSeen p)).pending.countP asksCursors
      ≤ w.shell.pending.countP asksCursors + 1 := by
  have hcount := countP_next (show Fits S w (.peerSeen p) from hp) asksCursors
  have hone : (w.node.handle (.peerSeen p)).2.countP asksCursors ≤ 1 := by
    rw [handle]
    split
    · exact Nat.zero_le _
    · exact List.countP_le_length
  change _ + 0 = _ + (w.node.handle (.peerSeen p)).2.countP _ at hcount
  omega

/-! ## Every step lowers the rank -/

section Moves

variable {S : Setting C} {w w' : World C}

/-- The answer to an offer with a page of the log. -/
abbrev pageOffered (w : World C) (p : PeerId) (b : Bin) (start limit : ℕ) : Move C :=
  .offer p b start ((w.logs ⟨p, b⟩).page start limit)
    (AppendLog.topmost ((w.logs ⟨p, b⟩).page start limit))

/-- Along a move nothing becomes unsettled. -/
theorem count_unsettled_le {mv : Move C} (hw : w'.shell = w.shell.next mv)
    (hl : w'.logs = w.logs) :
    (count (standing S w') fun e => ¬ Settled w'.node e.2.2)
      ≤ count (standing S w) fun e => ¬ Settled w.node e.2.2 := by
  rw [standing_congr S hl, World.node_move hw]
  exact count_le fun e _ hn hs => hn (hs.handle mv.event)

/-- The covered range after the answer to an offer. -/
theorem topmost_next {p : PeerId} {b : Bin} {start limit : ℕ}
    (hne : (w.logs ⟨p, b⟩).page start limit ≠ [])
    (hw : w'.shell = w.shell.next (pageOffered w p b start limit)) (k : PeerBin) :
    (w'.node.log k).topmost = if ⟨p, b⟩ = k then
      max (w.node.log k).topmost (AppendLog.topmost ((w.logs ⟨p, b⟩).page start limit))
      else (w.node.log k).topmost := by
  rw [World.node_move hw, Move.event, log_handle, endsInRound,
    if_pos rfl, PeerBinLog.topmost_advance, ingestedLog]
  split
  · next hk =>
    subst hk
    exact Tracks.topmost_page hne
  · rfl

/-- The offers of a round are past what is covered after it. -/
theorem not_behind_handle {n : Node C} {ev : Event C} (hr : endsInRound ev) {fx : Effect C}
    (h : fx ∈ (n.handle ev).2) : behind (n.handle ev).1 fx = false := by
  cases fx with
  | offer p b start =>
    rw [n.handle_eq_round hr] at h ⊢
    obtain ⟨-, rfl, htail⟩ := offer_mem_round (k := ⟨p, b⟩) h
    rw [behind, decide_eq_false_iff_not, PeerBinLog.next]
    omega
  | _ => rfl

/-- An answered offer covers no less. -/
theorem uncovered_le {p : PeerId} {b : Bin} {start limit : ℕ}
    (hne : (w.logs ⟨p, b⟩).page start limit ≠ [])
    (hw : w'.shell = w.shell.next (pageOffered w p b start limit)) (hl : w'.logs = w.logs) :
    uncovered S w' ≤ uncovered S w := by
  unfold uncovered
  rw [standing_congr S hl]
  refine count_le fun e _ he => ?_
  rw [topmost_next hne hw] at he
  split at he <;> omega

/-- It covers more if its page ends past what is covered. -/
theorem uncovered_lt {p : PeerId} {b : Bin} {start limit : ℕ} (hk : ⟨p, b⟩ ∈ S.keys)
    (hne : (w.logs ⟨p, b⟩).page start limit ≠ [])
    (hw : w'.shell = w.shell.next (pageOffered w p b start limit)) (hl : w'.logs = w.logs)
    (hlt : (w.node.log ⟨p, b⟩).topmost < AppendLog.topmost ((w.logs ⟨p, b⟩).page start limit)) :
    uncovered S w' < uncovered S w := by
  unfold uncovered
  rw [standing_congr S hl]
  -- the end of the page is covered now
  obtain ⟨c, hc⟩ := AppendLog.topmost_mem hne
  have hmem := (mem_standing S w ⟨p, b⟩ _ c).mpr ⟨hk, (AppendLog.mem_of_mem_page hc).1⟩
  refine count_lt (⟨p, b⟩, _, c) hmem hlt ?_ fun e _ he => ?_
  · rw [topmost_next hne hw, if_pos rfl]
    exact not_lt.mpr (le_max_right _ _)
  · rw [topmost_next hne hw] at he
    split at he <;> omega

/-- If it does not, the offer was behind, and is not pending any more. -/
theorem countP_behind_lt {p : PeerId} {b : Bin} {start limit : ℕ}
    (hf : Fits S w (pageOffered w p b start limit)) (hne : (w.logs ⟨p, b⟩).page start limit ≠ [])
    (hw : w'.shell = w.shell.next (pageOffered w p b start limit))
    (hle : AppendLog.topmost ((w.logs ⟨p, b⟩).page start limit) ≤ (w.node.log ⟨p, b⟩).topmost) :
    w'.pending.countP (behind w'.node) < w.pending.countP (behind w.node) := by
  have hbehind : behind w'.node = behind w.node := by
    funext fx
    cases fx with
    | offer q i start' =>
      rw [behind, behind, topmost_next hne hw]
      split
      · next hk => rw [← hk, max_eq_left hle]
      · rfl
    | _ => rfl
  have hnew : (w.node.handle (pageOffered w p b start limit).event).2.countP (behind w.node) = 0 := by
    have hround : endsInRound (pageOffered w p b start limit).event := rfl
    rw [List.countP_eq_zero, ← hbehind, World.node_move hw]
    intro fx hfx hb
    rw [not_behind_handle hround hfx] at hb
    cases hb
  have hone : [(.offer p b start : Effect C)].countP (behind w.node) = 1 := by
    rw [List.countP_singleton, behind, decide_eq_true ((AppendLog.start_le_topmost hne).trans hle)]
    rfl
  have hcount := countP_next hf (behind w.node)
  change _ + [(.offer p b start : Effect C)].countP _ = _ at hcount
  rw [hbehind, World.pending, World.pending, hw]
  omega

theorem rank_offer (h : Sound S w) {p : PeerId} {b : Bin} {start limit : ℕ}
    (hp : .offer p b start ∈ w.pending) (hne : (w.logs ⟨p, b⟩).page start limit ≠ [])
    (hw : w'.shell = w.shell.next (pageOffered w p b start limit)) (hl : w'.logs = w.logs)
    (hbudget : w'.ticks + w'.appends + 2 * w'.unseen.length
      = w.ticks + w.appends + 2 * w.unseen.length) (hm : w'.misses = w.misses) :
    rank S w' < rank S w := by
  have hf : Fits S w (pageOffered w p b start limit) := ⟨hp, limit, hne, rfl, rfl⟩
  have hkey := (h.found.keys _ (h.found.mem_logs h.account (k := ⟨p, b⟩) hp)).1
  refine Prod.Lex.toLex_lt_toLex'.mpr ⟨le_of_eq ?_, fun _ => Prod.Lex.toLex_lt_toLex'.mpr ⟨?_,
    fun _ => Prod.Lex.toLex_lt_toLex'.mpr ⟨uncovered_le hne hw hl, fun heq => ?_⟩⟩⟩
  · have hasked := asked_next hf (by simp [Move.event])
    change _ + 0 = _ at hasked
    dsimp only [budget, World.pending]
    rw [hw]
    omega
  · have hle := count_unsettled_le (S := S) hw hl
    dsimp only [unsettled]
    omega
  · refine countP_behind_lt hf hne hw (Nat.le_of_not_lt fun hlt => ?_)
    exact (uncovered_lt hkey hne hw hl hlt).ne heq

/-- An answered fetch has missed, or has settled an entry. -/
theorem rank_fetch (h : Sound S w) {p : PeerId} {b : Bin} {want : List C}
    {outcomes : List (C × Outcome)} (hp : .fetch p b want ∈ w.pending)
    (hperm : (outcomes.map (·.1)).Perm want) (hbad : ∀ e ∈ outcomes, e.2 = .rejected ↔ S.bad e.1)
    (hmissed : missed outcomes ≤ w.misses) (hw : w'.shell = w.shell.next (.fetch p b want outcomes))
    (hl : w'.logs = w.logs) (hbudget : w'.ticks + w'.appends + 2 * w'.unseen.length
      = w.ticks + w.appends + 2 * w.unseen.length)
    (hm : w'.misses = w.misses - missed outcomes) : rank S w' < rank S w := by
  refine Prod.Lex.toLex_lt_toLex'.mpr ⟨le_of_eq ?_, fun _ => Prod.Lex.toLex_lt_toLex.mpr (.inl ?_)⟩
  · have hf : Fits S w (.fetch p b want outcomes) := ⟨hp, hperm, hbad⟩
    have hasked := asked_next hf (by simp [Move.event])
    change _ + 0 = _ at hasked
    dsimp only [budget, World.pending]
    rw [hw]
    omega
  · dsimp only [unsettled]
    have hle := count_unsettled_le (S := S) hw hl
    by_cases hzero : missed outcomes = 0
    · have hlt : (count (standing S w') fun e => ¬ Settled w'.node e.2.2)
          < count (standing S w) fun e => ¬ Settled w.node e.2.2 := by
        obtain ⟨hne, hnd⟩ := h.account.batches p b want hp
        obtain ⟨c, hc⟩ := List.exists_mem_of_ne_nil want hne
        obtain ⟨e, he, rfl⟩ := List.mem_map.mp (hperm.symm.subset hc)
        -- a leased triple is unsettled, and its outcome settles it
        have hleased := h.account.accounted.leased p b want hp e.1 hc
        have harr := h.account.safe.claims.arrived _ _ hleased
        have hunset : ¬ Settled w.node e.1 := fun hs => hs.elim
          (h.account.safe.claims.unstored _ _ hleased) (h.account.safe.claims.unrejected _ harr)
        have hset : Settled (w.node.reported p outcomes) e.1 :=
          (settled_reported (hperm.nodup_iff.mpr hnd) he hleased).2 fun hmiss =>
            List.countP_eq_zero.mp hzero e he (decide_eq_true hmiss)
        obtain ⟨k, hk, i, hi⟩ := h.covered.arrived _ harr
        rw [standing_congr S hl, World.node_move hw, Move.event, handle_fetchResult]
        refine count_lt (k, i, e.1) ((mem_standing S w k i e.1).mpr ⟨hk, hi⟩) hunset ?_ ?_
        · rw [not_not, Settled, (settled_round _).1, (settled_round _).2.1]
          exact hset
        · intro d _ hn hs
          refine hn ?_
          rw [← handle_fetchResult _ _ b]
          exact hs.handle _
      omega
    · omega

end Moves

/-- Every step of a sound world lowers the rank. -/
theorem rank_step {S : Setting C} {w w' : World C} (h : Sound S w) (hs : Step S w w') :
    rank S w' < rank S w := by
  rcases hs with hs | hs
  · cases hs with
    | announce hp =>
      have hasked := asked_announced (h.unseen _ hp) (w := w)
      have hlen := List.length_erase_of_mem hp
      have hpos := List.length_pos_of_mem hp
      refine rank_lt_of_budget ?_
      dsimp only [budget, World.pending]
      omega
    | cursors hp =>
      have hasked := asked_next (show Fits S w (.cursors _ _) from ⟨hp, bins_cursors S w _⟩)
        (by simp [Move.event])
      refine rank_lt_of_budget ?_
      dsimp only [budget, World.pending]
      change _ + 1 = _ at hasked
      omega
    | offer hp hpage => exact rank_offer h hp hpage rfl rfl rfl rfl
    | fetch hp hperm hbad hmissed => exact rank_fetch h hp hperm hbad hmissed rfl rfl rfl rfl
  · cases hs with
    | tick ht =>
      have hasked := asked_next (show Fits S w .tick from trivial) (by simp [Move.event])
      refine rank_lt_of_budget ?_
      dsimp only [budget, World.pending]
      change _ + 0 = _ at hasked
      omega
    | append hk hb ha =>
      refine rank_lt_of_budget ?_
      dsimp only [budget, World.pending]
      omega

/-! ## The end -/

/-- What a quiescent world is: every good triple that is held or logged is stored and every bad one
is rejected, each key of the setting is settled to its head, nothing is in flight, missing or kept
in memory, and every delivery stored one triple. -/
structure Converged (S : Setting C) (w : World C) : Prop where
  has : ∀ c, w.node.has c ↔ c ∈ S.held ∨ ¬ S.bad c ∧ Logged S w c
  isRejected : ∀ c, w.node.m.isRejected c ↔ S.bad c ∧ Logged S w c
  interval : ∀ k, w.node.interval k = if k ∈ S.keys then some (w.logs k).head else none
  free : ∀ c p, ¬ w.node.m.Leased c p
  deficit : w.node.deficit = 0
  workingSet : w.node.workingSet = 0
  deliveries : w.node.deliveries
    + (Node.start Config.production S.radius S.policy S.held).m.got.size = w.node.m.got.size
  checkInvariants : w.node.checkInvariants = .ok ()

theorem Quiescent.converged {S : Setting C} {w : World C} (hq : Quiescent S w) (h : Sound S w) :
    Converged S w where
  has c := by
    refine ⟨fun hc => h.covered.stored c (by simpa [Node.has, PullState.has] using hc), ?_⟩
    have hgot : c ∈ w.node.m.got → w.node.has c := fun hc => by
      simpa [Node.has, PullState.has] using hc
    rintro (hc | ⟨hb, hc⟩)
    · exact hgot (h.covered.preloaded c hc)
    · exact hgot ((hq.settled h hc).resolve_right fun hr => hb (h.covered.rejected c hr).1)
  isRejected c := by
    refine ⟨fun hc => h.covered.rejected c (by simpa [PullState.isRejected] using hc), ?_⟩
    rintro ⟨hb, hc⟩
    have hr : c ∈ w.node.m.rejected := (hq.settled h hc).resolve_left fun hg => by
      rcases h.covered.stored c hg with hs | hs
      · exact S.held_good c hs hb
      · exact hs.1 hb
    simpa [PullState.isRejected] using hr
  interval k := by
    rw [Node.interval]
    split
    · next hk =>
      have hlog := hq.caught h k
      rw [hq.topmost h hk, Node.log, getElem?_logs (hq.mem_logs h hk), Option.getD_some] at hlog
      rw [getElem?_logs (hq.mem_logs h hk), Option.map_some, hlog]
    · next hk =>
      rw [ExtTreeMap.getElem?_eq_none fun hm => hk (h.found.keys k hm).1]
      rfl
  free := hq.free h
  deficit := by
    rw [Node.deficit, PullState.deficit, List.length_eq_zero_iff, List.filter_eq_nil_iff]
    intro c hc
    have harr := ExtTreeSet.mem_toList.mp hc
    have hgot : c ∈ w.node.m.got := (hq.settled h (h.covered.arrived c harr)).resolve_right
      (h.account.safe.claims.unrejected c harr)
    simpa using hgot
  workingSet := by
    rw [Node.workingSet, ← ExtTreeMap.length_keys, List.length_eq_zero_iff,
      List.eq_nil_iff_forall_not_mem]
    intro c hc
    have hknown := ExtTreeMap.mem_keys.mp hc
    -- a settled triple is known only while some window has it
    obtain ⟨k, b, he⟩ := h.covered.windowed c hknown (hq.settled h (h.covered.known c hknown))
    rw [hq.window h k b] at he
    cases he
  deliveries := by
    have hfloor := h.account.safe.counted.floor
    rw [h.npre] at hfloor
    exact hfloor
  checkInvariants := h.account.safe.checkInvariants (by rw [h.account.cfg]; rfl)

/-- What the end of a run determines: the stored and rejected triples and the intervals. -/
def Agree (w w' : World C) : Prop :=
  (∀ c, w.node.has c = w'.node.has c) ∧ (∀ c, w.node.m.isRejected c = w'.node.m.isRejected c)
    ∧ ∀ k, w.node.interval k = w'.node.interval k

theorem Converged.agree {S : Setting C} {w w' : World C} (h : Converged S w) (h' : Converged S w')
    (hl : ∀ k, w.logs k = w'.logs k) : Agree w w' := by
  have hlogged : ∀ c, Logged S w c ↔ Logged S w' c := fun c => by simp only [Logged, hl]
  refine ⟨fun c => ?_, fun c => ?_, fun k => ?_⟩
  · rw [Bool.eq_iff_iff, h.has, h'.has, hlogged]
  · rw [Bool.eq_iff_iff, h.isRejected, h'.isRejected, hlogged]
  · rw [h.interval, h'.interval, hl]

/-- No run is infinite, from every world reached the shell's answers alone lead to a quiescent one,
every quiescent world has converged, and two quiescent worlds with the same logs agree. -/
theorem converges (S : Setting C) (logs : PeerBin → AppendLog C) (appends ticks misses : ℕ) :
    (¬ ∃ run : ℕ → World C, run 0 = World.init S logs appends ticks misses
        ∧ ∀ n, Step S (run n) (run (n + 1)))
      ∧ (∀ w, Reachable S logs appends ticks misses w →
        ∃ w', Relation.ReflTransGen (Reply S) w w' ∧ Quiescent S w')
      ∧ (∀ w, Reachable S logs appends ticks misses w → Quiescent S w → Converged S w)
      ∧ ∀ w w', Reachable S logs appends ticks misses w → Quiescent S w →
        Reachable S logs appends ticks misses w' → Quiescent S w' →
        (∀ k, w.logs k = w'.logs k) → Agree w w' := by
  have hdone : ∀ w, Reachable S logs appends ticks misses w → Quiescent S w → Converged S w :=
    fun w hw hq => hq.converged (sound_of_reachable hw)
  refine ⟨?_, fun w hw => ?_, hdone, fun w w' hw hq hw' hq' hl =>
    (hdone w hw hq).agree (hdone w' hw' hq') hl⟩
  · rintro ⟨run, h₀, hrun⟩
    refine no_infinite_run (rank S) (fun _ _ => Sound.step) (fun _ _ => rank_step) run ?_ hrun
    rw [h₀]
    exact sound_init S logs appends ticks misses
  · exact exists_end (rank S) (fun _ _ h hs => h.step (.inl hs))
      (fun _ _ h hs => rank_step h (.inl hs)) (sound_of_reachable hw)

end Melissi.Puller
