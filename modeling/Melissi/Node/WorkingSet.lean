import Melissi.Node.Progress

/-!
# What the working set is bounded by

A triple enters the working set when an offer names it and leaves it only when a round prunes it:
settled and out of every window. An unsettled triple that is taken out of its last window, or named
at no place of one, is never pruned. So the windows bound the working set for exactly as long as no
event does that.
-/

namespace Melissi.Node

open Melissi.Common Melissi.Machine Melissi.Machine.PullState Melissi.Settlement
open Std (ExtTreeMap ExtTreeSet)

variable {C : Type} [LinearOrder C]

/-- `c` stands in the window of `k`. -/
def InWindow (n : Node C) (k : PeerBin) (c : C) : Prop := ∃ b : ℕ, (n.log k).entries[b]? = some c

/-- Every tracked triple stands in some window, and so does every one that counts in the deficit. -/
structure WindowBounded (n : Node C) : Prop where
  tracked : ∀ c ∈ n.binOf, ∃ k, n.InWindow k c
  counted : ∀ c ∈ n.m.arrived, c ∉ n.m.got → ∃ k, n.InWindow k c

/-- The event leaves each unsettled triple that it touches in some window: a departing peer offers
none that nobody else does, and an answer leaves those it names, and those that stood in the window
it answers, at some place above the interval, or they stand in another window. -/
def Keeps (n : Node C) : Event C → Prop
  | .peerGone p => ∀ c, ¬ Settled n c → ∀ k : PeerBin, k.peer = p → n.InWindow k c →
      ∃ k' : PeerBin, k'.peer ≠ p ∧ n.InWindow k' c
  | .offerResult peer bin start refs topmost => ∀ c, ¬ Settled n c →
      c ∈ refs.map (·.2) ∨ n.InWindow ⟨peer, bin⟩ c →
      (∃ b : ℕ, (n.log ⟨peer, bin⟩).interval < b ∧ (named refs b = some c ∨
          named refs b = none ∧ ¬ (start ≤ b ∧ b ≤ topmost)
            ∧ (n.log ⟨peer, bin⟩).entries[b]? = some c))
        ∨ ∃ k', k' ≠ ⟨peer, bin⟩ ∧ n.InWindow k' c
  | _ => True

/-- An event that ends in no round touches nothing. -/
theorem keeps_quiet {n : Node C} {ev : Event C} (h : ¬ endsInRound ev) : n.Keeps ev := by
  cases ev with
  | peerGone | offerResult | fetchResult => exact absurd rfl h
  | _ => trivial

/-! ## What the windows hold after the ingestion -/

theorem inWindow_congr {n n' : Node C} {k : PeerBin} (h : n'.logs[k]? = n.logs[k]?) (c : C) :
    n'.InWindow k c ↔ n.InWindow k c := by
  rw [InWindow, InWindow, log, log, h]

theorem inWindow_departed (n : Node C) (p : PeerId) (k : PeerBin) (c : C) :
    (n.departed p).InWindow k c ↔ k.peer ≠ p ∧ n.InWindow k c := by
  have hlogs := n.logs_departed p k
  by_cases hk : k.peer = p
  · rw [if_pos hk] at hlogs
    refine iff_of_false ?_ (fun h => h.1 hk)
    rintro ⟨b, hb⟩
    simp [log, hlogs, PeerBinLog.new, PeerBinLog.resume] at hb
  · rw [if_neg hk] at hlogs
    rw [inWindow_congr hlogs, and_iff_right hk]

theorem inWindow_answerOffer_self (n : Node C) (k : PeerBin) (start : ℕ) (refs : List (ℕ × C))
    (topmost : ℕ) (c : C) : (n.answerOffer k start refs topmost).InWindow k c ↔
      ∃ b : ℕ, (n.log k).interval < b ∧ (named refs b = some c ∨
        named refs b = none ∧ ¬ (start ≤ b ∧ b ≤ topmost) ∧ (n.log k).entries[b]? = some c) := by
  rw [InWindow, log_answerOffer]
  refine exists_congr fun b => ?_
  have hval : (n.log k).interval < b → ((answeredLog (n.log k) start refs topmost).entries[b]? = some c
      ↔ named refs b = some c ∨
        named refs b = none ∧ ¬ (start ≤ b ∧ b ≤ topmost) ∧ (n.log k).entries[b]? = some c) := by
    intro hb
    rw [entries_answeredLog start refs topmost (n.log k) hb]
    cases named refs b with
    | some d => simp
    | none =>
      by_cases hrange : start ≤ b ∧ b ≤ topmost
      · simp [hrange]
      · rw [if_neg hrange]
        simp [hrange]
  constructor
  · intro he
    have hb := (PeerBinLog.bounds_of_entry he).1
    rw [interval_answeredLog] at hb
    exact ⟨hb, (hval hb).mp he⟩
  · rintro ⟨hb, h⟩
    exact (hval hb).mpr h

/-- A round takes nothing unsettled out of a window. -/
theorem inWindow_round {n : Node C} {c : C} (hc : ¬ Settled n c) (k : PeerBin) :
    n.round.1.InWindow k c ↔ n.InWindow k c := by
  rw [InWindow, InWindow, log, log, logs_round]
  cases hl : n.logs[k]? with
  | none => simp
  | some l =>
    simp only [Option.map_some, Option.getD_some, PeerBinLog.entries_advance]
    refine exists_congr fun b => and_iff_left_of_imp fun he => ?_
    by_contra hle
    exact hc ((settledIn_iff n.m c).mp (l.settled_of_le_reached _ he (not_lt.mp hle)))

theorem inWindow_of_round {n : Node C} {c : C} {k : PeerBin} (h : n.round.1.InWindow k c) :
    n.InWindow k c := by
  rw [InWindow, log, logs_round] at h
  obtain ⟨b, hb⟩ := h
  cases hl : n.logs[k]? with
  | none => simp [hl, PeerBinLog.new, PeerBinLog.resume] at hb
  | some l =>
    rw [hl] at hb
    exact ⟨b, by rw [log, hl]; exact ((l.entries_advance _ b c).mp hb).1⟩

/-! ## What is tracked -/

/-- What has arrived is tracked, and so is what stands in a window. -/
structure Tracked (n : Node C) : Prop where
  known : Known n
  listed : ∀ k c, n.InWindow k c → c ∈ n.binOf

theorem Tracked.ingested {n : Node C} (h : Tracked n) (ev : Event C) (k : PeerBin) (c : C)
    (hw : (n.ingested ev).InWindow k c) : c ∈ (n.ingested ev).binOf := by
  cases ev with
  | peerGone p => exact h.listed k c ((n.inWindow_departed p k c).mp hw).2
  | offerResult peer bin start refs topmost =>
    have hbin : c ∈ refs.map (·.2) ∨ n.InWindow k c → c ∈ (n.ingested
        (.offerResult peer bin start refs topmost)).binOf := by
      intro hc
      rw [Node.ingested, mem_binOf_iff, binOf_answerOffer]
      by_cases hr : c ∈ refs.map (·.2)
      · exact ⟨bin, if_pos hr⟩
      · rw [if_neg hr, ← mem_binOf_iff]
        exact h.listed k c (hc.resolve_left hr)
    by_cases hk : (⟨peer, bin⟩ : PeerBin) = k
    · subst hk
      obtain ⟨b, -, hn | ⟨-, -, he⟩⟩ := (n.inWindow_answerOffer_self _ start refs topmost c).mp hw
      · exact hbin (.inl (List.mem_map.mpr ⟨_, mem_of_named hn, rfl⟩))
      · exact hbin (.inr ⟨b, he⟩)
    · exact hbin (.inr ((inWindow_congr (n.logs_answerOffer_ne _ start refs topmost hk) c).mp hw))
  | fetchResult peer bin outcomes => exact h.listed k c hw
  | _ => exact h.listed k c hw

theorem Tracked.handle {n : Node C} (h : Tracked n) (ev : Event C) : Tracked (n.handle ev).1 := by
  refine ⟨h.known.handle ev, fun k c hw => ?_⟩
  by_cases hr : endsInRound ev
  · rw [n.handle_eq_round hr] at hw ⊢
    obtain ⟨b, hb⟩ := (mem_binOf_iff _ c).mp (h.ingested ev k c (inWindow_of_round hw))
    refine (mem_binOf_iff _ c).mpr ⟨b, (binOf_round _ c b).mpr ⟨fun hp => ?_, hb⟩⟩
    -- what is pruned stands in no window of the settled logs, which are those of the round
    obtain ⟨i, hi⟩ := hw
    rw [log, logs_round, ← logs_settle] at hi
    cases hl : (n.ingested ev).settle.1.logs[k]? with
    | none => simp [hl, PeerBinLog.new, PeerBinLog.resume] at hi
    | some l =>
      rw [hl] at hi
      exact hp.2.2 ((mem_windowed _ c).mpr ⟨k, l, i, hl, hi⟩)
  · have hq := n.quiet_handle hr
    rw [hq.binOf]
    refine h.listed k c ?_
    rwa [InWindow, hq.log] at hw

/-! ## One event -/

/-- A round bounds the working set by the windows exactly where every tracked unsettled triple
stands in one. -/
theorem tracked_round_iff (n : Node C) : (∀ c ∈ n.round.1.binOf, ∃ k, n.round.1.InWindow k c)
    ↔ ∀ c ∈ n.binOf, ¬ Settled n c → ∃ k, n.InWindow k c := by
  have hset : ∀ c, Settled n.round.1 c ↔ Settled n c := by
    intro c
    rw [Settled, Settled, n.settled_round.1, n.settled_round.2.1]
  constructor
  · intro h c hc hs
    obtain ⟨b, hb⟩ := (mem_binOf_iff n c).mp hc
    have hkept : ¬ n.RoundPruned c := by
      intro hp
      obtain ⟨-, hp, -⟩ := hp
      rw [n.settle_frame.1] at hp
      exact hs hp
    obtain ⟨k, hk⟩ := h c ((mem_binOf_iff _ c).mpr ⟨b, (n.binOf_round c b).mpr ⟨hkept, hb⟩⟩)
    exact ⟨k, inWindow_of_round hk⟩
  · intro h c hc
    by_cases hs : Settled n c
    · exact windowed_round hc ((hset c).mpr hs)
    · obtain ⟨b, hb⟩ := (mem_binOf_iff _ c).mp hc
      obtain ⟨k, hk⟩ := h c ((mem_binOf_iff n c).mpr ⟨b, ((n.binOf_round c b).mp hb).2⟩) hs
      exact ⟨k, (inWindow_round hs k).mpr hk⟩

/-- Where every tracked triple stands in a window, an event leaves it so exactly if it keeps those
that are unsettled. -/
theorem keeps_iff {n : Node C} (ht : Tracked n) (h : ∀ c ∈ n.binOf, ∃ k, n.InWindow k c)
    {ev : Event C} (hr : endsInRound ev) :
    (∀ c ∈ (n.ingested ev).binOf, ¬ Settled (n.ingested ev) c → ∃ k, (n.ingested ev).InWindow k c)
      ↔ n.Keeps ev := by
  cases ev with
  | peerGone p =>
    have hset : ∀ c, Settled (n.departed p) c ↔ Settled n c := by
      intro c
      obtain ⟨-, -, -, hgot, hrej, -, -⟩ := losePeer_frame n.m p
      rw [Settled, Settled, departed, hgot, hrej]
    constructor
    · intro hall c hs k hk hw
      obtain ⟨k', hk'⟩ := hall c (ht.listed k c hw) ((hset c).not.mpr hs)
      exact ⟨k', (n.inWindow_departed p k' c).mp hk'⟩
    · intro hkeep c hc hs
      obtain ⟨k, hk⟩ := h c hc
      by_cases hp : k.peer = p
      · obtain ⟨k', hk'⟩ := hkeep c ((hset c).not.mp hs) k hp hk
        exact ⟨k', (n.inWindow_departed p k' c).mpr hk'⟩
      · exact ⟨k, (n.inWindow_departed p k c).mpr ⟨hp, hk⟩⟩
  | offerResult peer bin start refs topmost =>
    have hset : ∀ c, Settled (n.answerOffer ⟨peer, bin⟩ start refs topmost) c ↔ Settled n c := by
      intro c
      obtain ⟨-, -, hgot, hrej, -⟩ := n.answerOffer_machine_frame ⟨peer, bin⟩ start refs topmost
      rw [Settled, Settled, hgot, hrej]
    have hself := n.inWindow_answerOffer_self ⟨peer, bin⟩ start refs topmost
    have hother : ∀ {k : PeerBin} (c : C), k ≠ ⟨peer, bin⟩ →
        ((n.answerOffer ⟨peer, bin⟩ start refs topmost).InWindow k c ↔ n.InWindow k c) :=
      fun c hk => inWindow_congr (n.logs_answerOffer_ne _ start refs topmost (Ne.symm hk)) c
    have hbin := fun c => n.binOf_answerOffer ⟨peer, bin⟩ start refs topmost c
    constructor
    · intro hall c hs hc
      obtain ⟨k, hk⟩ := hall c (by
        rw [Node.ingested, mem_binOf_iff, hbin]
        by_cases hm : c ∈ refs.map (·.2)
        · exact ⟨bin, if_pos hm⟩
        · rw [if_neg hm, ← mem_binOf_iff]
          exact ht.listed _ c (hc.resolve_left hm)) ((hset c).not.mpr hs)
      by_cases hkey : k = ⟨peer, bin⟩
      · subst hkey
        exact .inl ((hself c).mp hk)
      · exact .inr ⟨k, hkey, (hother c hkey).mp hk⟩
    · intro hkeep c hc hs
      -- a triple that the answer does not touch stays in the window it stood in
      by_cases htouch : c ∈ refs.map (·.2) ∨ n.InWindow ⟨peer, bin⟩ c
      · rcases hkeep c ((hset c).not.mp hs) htouch with hw | ⟨k, hkey, hw⟩
        · exact ⟨_, (hself c).mpr hw⟩
        · exact ⟨k, (hother c hkey).mpr hw⟩
      · rw [not_or] at htouch
        have hold : c ∈ n.binOf := by
          rw [Node.ingested, mem_binOf_iff, hbin, if_neg htouch.1] at hc
          exact (mem_binOf_iff n c).mpr hc
        obtain ⟨k, hk⟩ := h c hold
        have hkey : k ≠ ⟨peer, bin⟩ := by
          rintro rfl
          exact htouch.2 hk
        exact ⟨k, (hother c hkey).mpr hk⟩
  | fetchResult peer bin outcomes =>
    exact iff_of_true (fun c hc _ => h c hc) trivial
  | _ => cases hr

/-- What counts in the deficit is tracked. -/
theorem windowBounded_iff {n : Node C} (ht : Tracked n) :
    WindowBounded n ↔ ∀ c ∈ n.binOf, ∃ k, n.InWindow k c :=
  ⟨WindowBounded.tracked, fun h => ⟨h, fun c hc _ => h c (ht.known c hc)⟩⟩

/-- One event: the windows bound the working set afterwards exactly if it keeps the unsettled. -/
theorem WindowBounded.handle_iff {n : Node C} (h : WindowBounded n) (ht : Tracked n) (ev : Event C) :
    WindowBounded (n.handle ev).1 ↔ n.Keeps ev := by
  rw [windowBounded_iff (ht.handle ev)]
  by_cases hr : endsInRound ev
  · rw [n.handle_eq_round hr, tracked_round_iff, keeps_iff ht h.tracked hr]
  · have hq := n.quiet_handle hr
    refine iff_of_true (fun c hc => ?_) (keeps_quiet hr)
    rw [hq.binOf] at hc
    obtain ⟨k, b, hb⟩ := h.tracked c hc
    exact ⟨k, b, by rw [hq.log]; exact hb⟩

/-! ## Runs -/

theorem tracked_start (cfg : Config) (radius : Bin) (policy : Policy) (held : List C) :
    Tracked (start cfg radius policy held) := by
  have hf := start_frame cfg radius policy held
  have hm := start_machine_frame cfg radius policy held
  refine ⟨fun c hc => ?_, ?_⟩
  · rw [hm.2.2.2.2.1] at hc
    simp at hc
  · rintro k c ⟨b, hb⟩
    simp [log, hf.2.2.2.2.1, PeerBinLog.new, PeerBinLog.resume] at hb

theorem windowBounded_start (cfg : Config) (radius : Bin) (policy : Policy) (held : List C) :
    WindowBounded (start cfg radius policy held) := by
  have hf := start_frame cfg radius policy held
  rw [windowBounded_iff (tracked_start cfg radius policy held), hf.2.2.2.2.2.1]
  exact fun c hc => absurd hc (by simp)

/-- In every run the windows bound the working set and the deficit after each event that ends in a
round, if and only if every event keeps the unsettled triples that it touches in some window. -/
theorem windowBounded_run_iff (cfg : Config) (radius : Bin) (policy : Policy) (held : List C)
    (evs : List (Event C)) :
    (∀ pre ev post, evs = pre ++ ev :: post → endsInRound ev →
        WindowBounded ((start cfg radius policy held).run (pre ++ [ev])).1)
      ↔ ∀ pre ev post, evs = pre ++ ev :: post →
        ((start cfg radius policy held).run pre).1.Keeps ev := by
  have htracked : ∀ pre, Tracked ((start cfg radius policy held).run pre).1 := fun pre =>
    feed_invariant Node.handle pre (fun _ h ev _ => h.handle ev)
      (tracked_start cfg radius policy held)
  constructor
  · intro hbound
    -- events that end in no round keep everything, so the bound holds after every prefix
    have hinit : ∀ pre post, evs = pre ++ post →
        WindowBounded ((start cfg radius policy held).run pre).1 := by
      intro pre
      induction pre using List.reverseRecOn with
      | nil => exact fun _ _ => windowBounded_start cfg radius policy held
      | append_singleton pre ev ih =>
        intro post heq
        rw [List.append_assoc, List.singleton_append] at heq
        by_cases hr : endsInRound ev
        · exact hbound pre ev post heq hr
        · rw [run_snoc_fst, (ih _ heq).handle_iff (htracked pre)]
          exact keeps_quiet hr
    intro pre ev post heq
    refine ((hinit pre _ heq).handle_iff (htracked pre) ev).mp ?_
    rw [← run_snoc_fst]
    exact hinit (pre ++ [ev]) post (by rw [heq, List.append_assoc, List.singleton_append])
  · intro hkeep
    have hinit : ∀ pre post, evs = pre ++ post →
        WindowBounded ((start cfg radius policy held).run pre).1 := by
      intro pre
      induction pre using List.reverseRecOn with
      | nil => exact fun _ _ => windowBounded_start cfg radius policy held
      | append_singleton pre ev ih =>
        intro post heq
        rw [List.append_assoc, List.singleton_append] at heq
        rw [run_snoc_fst, (ih _ heq).handle_iff (htracked pre)]
        exact hkeep pre ev post heq
    intro pre ev post heq _
    exact hinit (pre ++ [ev]) post (by rw [heq, List.append_assoc, List.singleton_append])

/-- The only holder of an unsettled triple departs: no log is left, and the triple is still tracked
and still counts. -/
theorem orphan_tracked :
    let n := ((start Config.production 0 Policy.shipped ([] : List ℕ)).run
      [.peerSeen 1, .offerResult 1 0 1 [(1, 7)] 1, .peerGone 1]).1
    7 ∈ n.binOf ∧ n.logs.keys = [] ∧ n.workingSet = 1 ∧ n.deficit = 1 ∧ ¬ WindowBounded n := by
  intro n
  have hlogs : n.logs.keys = [] := by decide +kernel
  have hbin : 7 ∈ n.binOf := by decide +kernel
  refine ⟨hbin, hlogs, by decide +kernel, by decide +kernel, fun h => ?_⟩
  obtain ⟨k, b, hb⟩ := h.tracked 7 hbin
  have hnone : n.logs[k]? = none := by
    refine ExtTreeMap.getElem?_eq_none fun hk => ?_
    rw [← ExtTreeMap.mem_keys, hlogs] at hk
    cases hk
  simp [log, hnone, PeerBinLog.new, PeerBinLog.resume] at hb

end Melissi.Node
