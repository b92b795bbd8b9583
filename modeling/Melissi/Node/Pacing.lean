import Melissi.Node.HighWater
import Melissi.Node.Shell

/-!
# Advertisements are bounded by justifications

Offers for a peer and bin are emitted by the answered cursors, by ticks and by the tail rule of
every round. Only the tail rule could feed itself. It is silent while a log is closed with ground
uncovered, so each of its offers needs a gap to close first: an entry that leaves the window, or an
answer that states a range of its own.
-/

namespace Melissi.Node

open Melissi.Common Melissi.Machine Melissi.Machine.PullState Melissi.Settlement
open Std (ExtTreeMap ExtTreeSet)

variable {C : Type} [LinearOrder C]

/-! ## Justifications -/

/-- An answer for `k` whose own stated topmost reaches the start it answers. -/
def stated (k : PeerBin) : Event C → Bool
  | .offerResult peer bin start _ topmost =>
    decide (peer = k.peer) && decide (bin = k.bin) && decide (start ≤ topmost)
  | _ => false

/-- A gap of `k` closes: the interval catches the covered high-water, and an entry left the window
or the answer stated a range. -/
def gapClose (k : PeerBin) (n : Node C) (ev : Event C) : Bool :=
  let l := (n.handle ev).1.log k
  decide (l.interval = l.topmost) &&
    (((n.log k).entries.keys ++ (ingestedLog k (n.log k) ev).entries.keys).any
        (fun b => !l.entries.contains b) || stated k ev)

/-- How many gaps of `k` a run closes. -/
def gapCloses (k : PeerBin) : Node C → List (Event C) → ℕ
  | _, [] => 0
  | n, ev :: evs => (gapClose k n ev).toNat + gapCloses k (n.handle ev).1 evs

def isTick : Event C → Bool
  | .tick => true
  | _ => false

/-- The answer to a `GetCursors` of `p`. -/
def isCursors (p : PeerId) : Event C → Bool
  | .cursorsResult peer _ => decide (peer = p)
  | _ => false

/-! ## The tail rule -/

/-- Where the log of `k` is closed there is ground left to settle. -/
def Paced (k : PeerBin) (n : Node C) : Prop :=
  k ∈ n.logs → k ∉ n.disc.offerOpen → (n.log k).interval < (n.log k).topmost

/-- Unsettled ground shows in the window. -/
def Shown (l : PeerBinLog C) : Prop := l.interval = l.topmost ∨ ∃ b, b ∈ l.entries

/-- The answer leaves no ground covered that nobody named: it states a range, or its log has a
window, or it names an entry above the interval. -/
def Grounded (k : PeerBin) (n : Node C) (ev : Event C) : Prop :=
  ∀ start refs topmost, ev = .offerResult k.peer k.bin start refs topmost →
    start ≤ topmost ∨ (∃ b, b ∈ (n.log k).entries) ∨ ∃ e ∈ refs, (n.log k).interval < e.1

omit [LinearOrder C] in
/-- A log whose interval has caught up has an empty window. -/
theorem not_mem_of_caught {l : PeerBinLog C} (h : l.interval = l.topmost) (b : ℕ) :
    b ∉ l.entries := fun hb => by
  have := l.window b hb
  omega

theorem settledLog_eq_round (n : Node C) (k : PeerBin) : n.settledLog k = n.round.1.log k := by
  rw [log_round]
  rfl

/-- The offers of a round are tails: they start past all that is covered. -/
theorem offer_mem_round {n : Node C} {k : PeerBin} {start : ℕ}
    (h : .offer k.peer k.bin start ∈ n.round.2) :
    k ∈ n.logs ∧ start = (n.round.1.log k).next
      ∧ (n.round.1.log k).interval = (n.round.1.log k).topmost := by
  rw [round_snd, List.mem_append, effects_settle, List.mem_flatMap] at h
  rcases h with ⟨k', hk', h⟩ | h
  · rw [settleEffects, List.mem_append] at h
    rcases h with h | h
    · simp at h
    · split at h
      · next htail =>
        simp only [List.mem_singleton, Effect.offer.injEq] at h
        obtain ⟨hp, hb, rfl⟩ := h
        obtain rfl : k = k' := PeerBin.ext hp hb
        rw [← settledLog_eq_round]
        exact ⟨ExtTreeMap.mem_keys.mp hk', rfl, htail.1⟩
      · cases h
  · obtain ⟨p, b, want, h⟩ := mem_schedule h
    cases h

/-- Every emitted offer starts where the log it is for then stands. -/
theorem offer_mem_handle {n : Node C} {ev : Event C} {k : PeerBin} {start : ℕ}
    (h : .offer k.peer k.bin start ∈ (n.handle ev).2) :
    start = ((n.handle ev).1.log k).next := by
  by_cases hr : endsInRound ev
  · rw [n.handle_eq_round hr] at h ⊢
    exact (offer_mem_round h).2.1
  · have hq := n.quiet_handle hr
    rcases hq.effects _ h with ⟨p, hp⟩ | ⟨k', hk'⟩
    · cases hp
    · simp only [Effect.offer.injEq] at hk'
      obtain ⟨hp, hb, rfl⟩ := hk'
      obtain rfl : k = k' := PeerBin.ext hp hb
      rw [hq.log]

/-- Every round leaves its logs paced. -/
theorem paced_round {n : Node C} {k : PeerBin} (hp : k.peer ∈ n.peers) : Paced k n.round.1 := by
  intro hk ho
  rw [open_round, not_or] at ho
  have hle := (n.round.1.log k).interval_le
  refine lt_of_le_of_ne hle fun heq => ho.2 ⟨(n.mem_logs_round k).mp hk, ?_, hp, ho.1⟩
  rw [settledLog_eq_round]
  exact heq

omit [LinearOrder C] in
/-- An advance stops only below an entry or at the end of what is covered. -/
theorem shown_advance (l : PeerBinLog C) (settled : C → Bool) : Shown (l.advance settled).1 := by
  rcases l.reached_maximal settled with h | ⟨c, hc, -⟩
  · exact .inl h
  · refine .inr ⟨l.reached settled + 1, ExtTreeMap.isSome_getElem?_iff_mem.mp ?_⟩
    rw [(l.entries_advance settled _ c).mpr ⟨hc, Nat.lt_succ_self _⟩]
    rfl

/-- What the tail rule of a round offers was closed and has caught up. -/
theorem offersTo_round (n : Node C) (k : PeerBin) : offersTo k n.round.2 = 0 ∨
    offersTo k n.round.2 = 1 ∧ k ∉ n.disc.offerOpen ∧ k ∈ n.logs
      ∧ (n.round.1.log k).interval = (n.round.1.log k).topmost := by
  have hopens := n.opens_round k
  have hyes : ∀ {s : BTreeSet PeerBin}, k ∈ s → s.contains k = true := ExtTreeSet.mem_iff_contains.mp
  have hno : ∀ {s : BTreeSet PeerBin}, k ∉ s → s.contains k = false := by simp
  by_cases hopen : k ∈ n.disc.offerOpen
  · have hopen' : k ∈ n.round.1.disc.offerOpen := (n.open_round k).mpr (.inl hopen)
    simp only [hyes hopen,
      hyes hopen', Bool.toNat_true] at hopens
    exact .inl (by omega)
  · by_cases htail : k ∈ n.logs ∧ n.tailOffered k
    · have hopen' : k ∈ n.round.1.disc.offerOpen := (n.open_round k).mpr (.inr htail)
      simp only [hno hopen, hyes hopen',
        Bool.toNat_true, Bool.toNat_false] at hopens
      refine .inr ⟨hopens, hopen, htail.1, ?_⟩
      rw [← settledLog_eq_round]
      exact htail.2.1
    · have hopen' : k ∉ n.round.1.disc.offerOpen := fun h =>
        ((n.open_round k).mp h).elim hopen htail
      simp only [hno hopen, hno hopen',
        Bool.toNat_false] at hopens
      exact .inl (by omega)

/-- A gap closes where the interval has caught up and something stood in the window. -/
theorem gapClose_of_caught {k : PeerBin} {n : Node C} {ev : Event C}
    (hc : ((n.handle ev).1.log k).interval = ((n.handle ev).1.log k).topmost)
    (h : (∃ b, b ∈ (n.log k).entries) ∨ (∃ b, b ∈ (ingestedLog k (n.log k) ev).entries)
      ∨ stated k ev) : gapClose k n ev = true := by
  have hnone := not_mem_of_caught hc
  simp only [gapClose, hc, decide_true, Bool.true_and, Bool.or_eq_true, List.any_eq_true,
    List.mem_append, ExtTreeMap.mem_keys]
  rcases h with ⟨b, hb⟩ | ⟨b, hb⟩ | h
  · exact .inl ⟨b, .inl hb, by simpa using hnone b⟩
  · exact .inl ⟨b, .inr hb, by simpa using hnone b⟩
  · exact .inr h

/-! ## One event -/

/-- What holds of `k` throughout a stay of its peer. -/
structure Pacing (k : PeerBin) (n : Node C) : Prop where
  present : k.peer ∈ n.peers
  paced : Paced k n
  shown : Shown (n.log k)

/-- A round whose log of `k` was closed offers its tail only by closing a gap. -/
theorem offersTo_quiet_round {k : PeerBin} {n n' : Node C} {ev : Event C} (hev : n.handle ev = n'.round)
    (h : Pacing k n) (hlogs : k ∈ n'.logs → k ∈ n.logs)
    (hopen : k ∉ n'.disc.offerOpen → k ∉ n.disc.offerOpen) :
    offersTo k (n.handle ev).2 ≤ (gapClose k n ev).toNat := by
  rw [hev]
  rcases n'.offersTo_round k with h₀ | ⟨h₁, ho, hk, hc⟩
  · omega
  · have hlt := h.paced (hlogs hk) (hopen ho)
    have hwin := h.shown.resolve_left hlt.ne
    rw [← hev] at hc
    rw [gapClose_of_caught hc (.inl hwin), h₁, Bool.toNat_true]

/-- An answer for `k` opens its tail again only by closing a gap. -/
theorem offersTo_answer {k : PeerBin} {n : Node C} {start : ℕ} {refs : List (ℕ × C)} {topmost : ℕ}
    (hg : Grounded k n (.offerResult k.peer k.bin start refs topmost)) :
    offersTo k (n.handle (.offerResult k.peer k.bin start refs topmost)).2
      ≤ (gapClose k n (.offerResult k.peer k.bin start refs topmost)).toNat := by
  rcases (n.answerOffer k start refs topmost).offersTo_round k with h₀ | ⟨h₁, -, -, hc⟩
  · rw [handle_offerResult, h₀]
    exact Nat.zero_le _
  · rw [← handle_offerResult] at hc
    rw [gapClose_of_caught hc, handle_offerResult, h₁, Bool.toNat_true]
    rcases hg start refs topmost rfl with hs | hw | ⟨e, he, hlt⟩
    · exact .inr (.inr (by simp [stated, hs]))
    · exact .inl hw
    · refine .inr (.inl ⟨e.1, ?_⟩)
      rw [ingestedLog, if_pos rfl, ← ExtTreeMap.isSome_getElem?_iff_mem,
        entries_answeredLog start refs topmost _ hlt]
      have hn : named refs e.1 ≠ none := fun h =>
        named_eq_none.mp h (List.mem_map.mpr ⟨e, he, rfl⟩)
      cases hc : named refs e.1 with
      | none => exact absurd hc hn
      | some c => rfl

theorem peers_handle {n : Node C} {ev : Event C} {p : PeerId} (hev : ev ≠ .peerGone p)
    (hp : p ∈ n.peers) : p ∈ (n.handle ev).1.peers := by
  cases ev with
  | peerSeen q =>
    simp only [handle]
    split
    · exact hp
    · simp [hp]
  | peerGone q =>
    have hq : q ≠ p := fun h => hev (by rw [h])
    rw [handle_peerGone, (round_frame _).2.2.1, departed]
    simp [hp, hq]
  | cursorsResult peer cursors => rw [(n.offered_cursorsResult peer cursors).peers]; exact hp
  | offerResult peer bin start refs topmost =>
    rw [handle_offerResult, (round_frame _).2.2.1, (n.answerOffer_frame _ start refs topmost).2.2.1]
    exact hp
  | tick => rw [n.offered_tick.peers]; exact hp
  | fetchResult peer bin outcomes =>
    rw [handle_fetchResult, (round_frame _).2.2.1]
    exact hp

/-- While the peer stays, its logs stay paced. -/
theorem Pacing.handle {k : PeerBin} {n : Node C} (h : Pacing k n) {ev : Event C}
    (hev : ev ≠ .peerGone k.peer) : Pacing k (n.handle ev).1 := by
  have hpres := peers_handle hev h.present
  have hround : ∀ n' : Node C, n.handle ev = n'.round → Pacing k (n.handle ev).1 := by
    intro n' hn
    have hp : k.peer ∈ n'.peers := by
      rw [← (round_frame n').2.2.1, ← hn]
      exact hpres
    rw [hn] at hpres ⊢
    exact ⟨hpres, paced_round hp, by rw [log_round]; exact shown_advance _ _⟩
  have hoffered : ∀ {K}, Offered n (n.handle ev) K → (∀ k, K k → k ∈ (n.handle ev).1.logs) →
      Pacing k (n.handle ev).1 := by
    intro K ho _
    refine ⟨hpres, fun hk hopen => ?_, ?_⟩
    · rw [ho.opened, not_or] at hopen
      rw [ho.log]
      exact h.paced (((ho.logs k).mp hk).resolve_right hopen.2) hopen.1
    · rw [ho.log]
      exact h.shown
  cases ev with
  | peerSeen p =>
    refine ⟨hpres, ?_, ?_⟩
    · have := h.paced
      simp only [Node.handle]
      split <;> exact this
    · have := h.shown
      simp only [Node.handle]
      split <;> exact this
  | peerGone p => exact hround _ (n.handle_peerGone p)
  | cursorsResult peer cursors =>
    have ho := n.offered_cursorsResult peer cursors
    exact hoffered ho fun k hk => (ho.logs k).mpr (.inr hk)
  | offerResult peer bin start refs topmost =>
    exact hround _ (n.handle_offerResult start refs topmost peer bin)
  | tick =>
    have ho := n.offered_tick
    exact hoffered ho fun k hk => (ho.logs k).mpr (.inr hk)
  | fetchResult peer bin outcomes => exact hround _ (n.handle_fetchResult peer bin outcomes)

/-- One event offers `k` at most once, and is a tick, an answer to the cursors of the peer, or
closes a gap. -/
theorem Pacing.offersTo_handle {k : PeerBin} {n : Node C} (h : Pacing k n) {ev : Event C}
    (hev : ev ≠ .peerGone k.peer) (hg : Grounded k n ev) :
    offersTo k (n.handle ev).2
      ≤ (isCursors k.peer ev).toNat + (isTick ev).toNat + (gapClose k n ev).toNat := by
  have hoffered : ∀ {K}, Offered n (n.handle ev) K →
      offersTo k (n.handle ev).2 ≤ 1 ∧ (¬ K k → offersTo k (n.handle ev).2 = 0) := by
    intro K ho
    have hcount := ho.counted k
    have hle := Bool.toNat_le ((n.handle ev).1.disc.offerOpen.contains k)
    refine ⟨by omega, fun hK => ?_⟩
    have hsame : (n.handle ev).1.disc.offerOpen.contains k = n.disc.offerOpen.contains k := by
      rw [Bool.eq_iff_iff]
      simpa [hK] using ho.opened k
    rw [hsame] at hcount
    omega
  cases ev with
  | peerSeen p =>
    have h₀ : offersTo k (n.handle (.peerSeen p)).2 = 0 := offersTo_eq_zero fun start => by
      simp only [Node.handle]
      split <;> simp
    omega
  | peerGone p =>
    have hp : k.peer ≠ p := fun h => hev (by rw [h])
    refine (offersTo_quiet_round (n.handle_peerGone p) h (fun hk => ?_) fun ho => ?_).trans
      (Nat.le_add_left _ _)
    · rw [mem_logs_iff, logs_departed, if_neg hp] at hk
      exact mem_logs_iff.mpr hk
    · rw [open_departed] at ho
      exact fun h => ho ⟨hp, h⟩
  | cursorsResult peer cursors =>
    obtain ⟨h₁, h₀⟩ := hoffered (n.offered_cursorsResult peer cursors)
    by_cases hp : peer = k.peer
    · rw [isCursors, decide_eq_true hp, Bool.toNat_true]
      omega
    · rw [h₀ fun hK => hp hK.1.symm]
      exact Nat.zero_le _
  | offerResult peer bin start refs topmost =>
    by_cases hk : (⟨peer, bin⟩ : PeerBin) = k
    · subst hk
      exact (offersTo_answer hg).trans (Nat.le_add_left _ _)
    · refine (offersTo_quiet_round (n.handle_offerResult start refs topmost peer bin) h
        (fun hl => ?_) fun ho => ?_).trans (Nat.le_add_left _ _)
      · rw [mem_logs_iff, logs_answerOffer_ne _ _ _ _ _ hk] at hl
        exact mem_logs_iff.mpr hl
      · rw [(n.answerOffer_frame _ start refs topmost).2.2.2.2.2, Discovery.close] at ho
        simpa [hk] using ho
  | tick =>
    obtain ⟨h₁, -⟩ := hoffered n.offered_tick
    rw [isTick, Bool.toNat_true]
    omega
  | fetchResult peer bin outcomes =>
    exact (offersTo_quiet_round (n.handle_fetchResult peer bin outcomes) h id id).trans
      (Nat.le_add_left _ _)

/-! ## A stay -/

theorem Pacing.offersTo_run {k : PeerBin} {n : Node C} (h : Pacing k n) {evs : List (Event C)}
    (hev : .peerGone k.peer ∉ evs) (hg : Along (Grounded k) n evs) :
    offersTo k (n.run evs).2
      ≤ evs.countP (isCursors k.peer) + evs.countP isTick + gapCloses k n evs := by
  induction evs generalizing n with
  | nil => simp [offersTo]
  | cons ev evs ih =>
    obtain ⟨hne, hev⟩ := not_or.mp (List.mem_cons.not.mp hev)
    have hstep := h.offersTo_handle (Ne.symm hne) hg.1
    have hrun := ih (h.handle (Ne.symm hne)) hev hg.2
    rw [run_cons]
    dsimp only
    rw [offersTo_append, List.countP_cons, List.countP_cons, gapCloses]
    have hbool : ∀ b : Bool, (if b = true then 1 else 0) = b.toNat := by decide
    rw [hbool, hbool]
    omega

/-- Every log shows its unsettled ground, in any run. -/
theorem shown_run (cfg : Config) (radius : Bin) (policy : Policy) (held : List C)
    (evs : List (Event C)) (k : PeerBin) :
    Shown (((start cfg radius policy held).run evs).1.log k) := by
  refine feed_invariant Node.handle (I := fun n => Shown (n.log k)) evs (fun n h ev _ => ?_) ?_
  · rw [log_handle]
    split
    · exact shown_advance _ _
    · exact h
  · rw [log, (start_frame cfg radius policy held).2.2.2.2.1]
    exact .inl rfl

/-- While a peer stays, the offers for its bin are bounded by the first round, the ticks and the
gaps that close: provided every answer states a range, finds a window or names an entry above the
interval, and the peer was seen with no closed log of the bin fully settled. -/
theorem adverts_bounded (cfg : Config) (radius : Bin) (policy : Policy) (held : List C)
    (pre seg : List (Event C)) (k : PeerBin) (hgone : .peerGone k.peer ∉ seg)
    (hcursors : seg.countP (isCursors k.peer) ≤ 1) :
    let n := ((start cfg radius policy held).run (pre ++ [.peerSeen k.peer])).1
    Paced k n → Along (Grounded k) n seg →
      offersTo k (n.run seg).2 ≤ 1 + seg.countP isTick + gapCloses k n seg := by
  intro n hpaced hg
  have hpres : k.peer ∈ n.peers := by
    simp only [n, run_snoc_fst, Node.handle]
    split
    · next h => simpa using h
    · simp
  have hrun := Pacing.offersTo_run ⟨hpres, hpaced, shown_run cfg radius policy held _ k⟩ hgone hg
  omega

theorem adverts_bounded_ticked :
    let n := ((start Config.production 0 Policy.shipped ([] : List ℕ)).run ([] ++ [.peerSeen 1])).1
    let seg : List (Event ℕ) := [.cursorsResult 1 [(1, 5)], .offerResult 1 1 1 [(1, 7)] 1, .tick,
      .fetchResult 1 1 [(7, .delivered)], .offerResult 1 1 1 [(1, 7)] 1]
    offersTo ⟨1, 1⟩ (n.run seg).2 ≤ 1 + seg.countP isTick + gapCloses ⟨1, 1⟩ n seg := by
  refine adverts_bounded Config.production 0 Policy.shipped [] [] _ ⟨1, 1⟩ (by decide) (by decide)
    ?_ ?_
  · intro hk
    exact absurd hk (by decide +kernel)
  · simp only [Along, and_true]
    refine ⟨?_, ?_, ?_, ?_, ?_⟩ <;> intro start refs topmost h <;> cases h
    · exact .inl (by decide)
    · exact .inl (by decide)

/-- An answer of nothing, stating less than it was asked for, is covered to its start, settles at
once and is offered again: two offers on one credit. -/
theorem adverts_unbounded :
    let s := Shell.start (start Config.production 0 Policy.shipped ([] : List ℕ))
    let seg : List (Move ℕ) := [.cursors 1 [(1, 0)], .offer 1 1 1 [] 0]
    let n := (s.play [.peerSeen 1]).node
    let evs := seg.map Move.event
    s.Plays (.peerSeen 1 :: seg) ∧ .peerGone 1 ∉ evs ∧ evs.countP (isCursors 1) = 1
      ∧ ¬ offersTo ⟨1, 1⟩ (n.run evs).2 ≤ 1 + evs.countP isTick + gapCloses ⟨1, 1⟩ n evs := by
  decide +kernel

end Melissi.Node
