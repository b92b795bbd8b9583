import Melissi.Node.Handle

/-!
# The durable high-waters

The interval of a peer and bin is the only state that outlives the node. Within the life of a log it
never goes back, and it passes an offered entry only when that entry is settled or a later answer
stopped naming it.
-/

namespace Melissi.Node

open Melissi.Common Melissi.Machine Melissi.Machine.PullState Melissi.Settlement
open Std (ExtTreeMap ExtTreeSet)

variable {C : Type} [LinearOrder C]

/-! ## One log over one event -/

/-- What an event does to the log of `k` before its round. -/
def ingestedLog (k : PeerBin) (l : PeerBinLog C) : Event C → PeerBinLog C
  | .peerGone p => if k.peer = p then .new else l
  | .offerResult peer bin start refs topmost =>
    if ⟨peer, bin⟩ = k then answeredLog l start refs topmost else l
  | _ => l

/-- The high-waters of `k` among the effects. -/
def uptos (k : PeerBin) (fx : List (Effect C)) : List ℕ :=
  fx.filterMap fun
    | .settled p b upto => if p = k.peer ∧ b = k.bin then some upto else none
    | _ => none

omit [LinearOrder C] in
theorem mem_uptos {k : PeerBin} {fx : List (Effect C)} {upto : ℕ} :
    upto ∈ uptos k fx ↔ .settled k.peer k.bin upto ∈ fx := by
  simp only [uptos, List.mem_filterMap]
  constructor
  · rintro ⟨e, he, h⟩
    cases e with
    | settled p b u =>
      simp only [Option.ite_none_right_eq_some, Option.some.injEq] at h
      obtain ⟨⟨rfl, rfl⟩, rfl⟩ := h
      exact he
    | _ => simp at h
  · exact fun h => ⟨_, h, by simp⟩

omit [LinearOrder C] in
@[simp] theorem uptos_append (k : PeerBin) (fx fx' : List (Effect C)) :
    uptos k (fx ++ fx') = uptos k fx ++ uptos k fx' :=
  List.filterMap_append

omit [LinearOrder C] in
/-- Effects that settle nothing of `k` show no high-water. -/
theorem uptos_eq_nil {k : PeerBin} {fx : List (Effect C)}
    (h : ∀ upto, .settled k.peer k.bin upto ∉ fx) : uptos k fx = [] :=
  List.eq_nil_iff_forall_not_mem.mpr fun upto hu => h upto (mem_uptos.mp hu)

theorem settledIn_congr {m m' : PullState C} (hg : m.got = m'.got)
    (hr : m.rejected = m'.rejected) : settledIn m = settledIn m' := by
  funext c
  rw [Bool.eq_iff_iff, settledIn_iff, settledIn_iff, hg, hr]

omit [LinearOrder C] in
/-- A log that covers nothing stays as it is. -/
theorem advance_new (settled : C → Bool) :
    ((PeerBinLog.new : PeerBinLog C).advance settled).1 = .new := by
  have hi := (PeerBinLog.new : PeerBinLog C).reached_le_topmost settled
  rw [PeerBinLog.topmost_new, Nat.le_zero] at hi
  refine PeerBinLog.ext hi rfl (ExtTreeMap.ext_getElem? fun b => Option.ext fun c => ?_)
  rw [PeerBinLog.entries_advance]
  simp

theorem log_round (n : Node C) (k : PeerBin) :
    n.round.1.log k = ((n.log k).advance (settledIn n.m)).1 := by
  rw [log, log, logs_round]
  cases n.logs[k]? with
  | none => simp [advance_new]
  | some l => rfl

/-- A round settles `k` at most once, and only to move its interval. -/
theorem uptos_round (n : Node C) (k : PeerBin) : uptos k n.round.2 =
    if (n.log k).interval < (n.round.1.log k).interval then [(n.round.1.log k).interval] else [] := by
  have hsched : uptos k n.planned.schedule.2 = [] := uptos_eq_nil fun upto h => by
    obtain ⟨p, b, want, h⟩ := mem_schedule h
    cases h
  have hkey : ∀ k', uptos k (n.settleEffects k') =
      if k' = k then ((n.log k).advance (settledIn n.m)).2.toList else [] := by
    intro k'
    have htail : uptos k (if n.tailOffered k' then
        [.offer k'.peer k'.bin (n.settledLog k').next] else [] : List (Effect C)) = [] :=
      uptos_eq_nil fun upto h => by split at h <;> simp at h
    rw [settleEffects, uptos_append, htail, List.append_nil]
    split
    · next hk =>
      subst hk
      cases ((n.log k').advance (settledIn n.m)).2 <;> simp [uptos]
    · next hk =>
      exact uptos_eq_nil fun upto h => hk <| by
        simp only [Option.mem_toList, Option.map_eq_some_iff, Effect.settled.injEq] at h
        obtain ⟨u, -, hp, hb, -⟩ := h
        exact PeerBin.ext hp hb
  have hflat : ∀ ks : List PeerBin, ks.Nodup → uptos k (ks.flatMap n.settleEffects) =
      if k ∈ ks then ((n.log k).advance (settledIn n.m)).2.toList else [] := by
    intro ks hks
    induction ks with
    | nil => rfl
    | cons k' ks ih =>
      obtain ⟨hk', hks⟩ := List.nodup_cons.mp hks
      rw [List.flatMap_cons, uptos_append, hkey, ih hks]
      by_cases hkk : k' = k
      · subst hkk
        simp [hk']
      · simp [hkk, Ne.symm hkk]
  rw [round_snd, uptos_append, hsched, List.append_nil, effects_settle, hflat _ (nodup_keys n.logs),
    log_round, PeerBinLog.interval_advance, PeerBinLog.advance]
  by_cases hk : k ∈ n.logs
  · rw [if_pos (ExtTreeMap.mem_keys.mpr hk)]
    simp only [gt_iff_lt]
    split <;> rfl
  · have hlog : n.log k = .new := by
      rw [log, ExtTreeMap.getElem?_eq_none hk, Option.getD_none]
    have h₀ := (PeerBinLog.new : PeerBinLog C).reached_le_topmost (settledIn n.m)
    rw [PeerBinLog.topmost_new] at h₀
    rw [if_neg (by simpa using hk), hlog, if_neg (by rw [PeerBinLog.interval_new]; omega)]

theorem log_ingested (n : Node C) (ev : Event C) (k : PeerBin) :
    (n.ingested ev).log k = ingestedLog k (n.log k) ev := by
  cases ev with
  | peerGone p =>
    rw [ingested, log, logs_departed, ingestedLog]
    split <;> rfl
  | offerResult peer bin start refs topmost =>
    rw [ingested, ingestedLog]
    split
    · next hk => rw [← hk, log_answerOffer]
    · next hk => rw [log, logs_answerOffer_ne _ _ _ _ _ hk, log]
  | _ => rfl

/-- The log of `k` after one event: ingested, and advanced if the event ends in a round. -/
theorem log_handle (n : Node C) (ev : Event C) (k : PeerBin) : (n.handle ev).1.log k =
    if endsInRound ev then
      ((ingestedLog k (n.log k) ev).advance (settledIn (n.handle ev).1.m)).1
    else n.log k := by
  split
  · next hr =>
    have hs := (n.ingested ev).settled_round
    rw [n.handle_eq_round hr, log_round, log_ingested, settledIn_congr hs.1 hs.2.1]
  · next hr => exact (n.quiet_handle hr).log k

/-- Only what an event ingests moves what a log covers. -/
theorem topmost_handle (n : Node C) (ev : Event C) (k : PeerBin) :
    ((n.handle ev).1.log k).topmost = (ingestedLog k (n.log k) ev).topmost := by
  rw [log_handle]
  split
  · exact PeerBinLog.topmost_advance _ _
  · next hr =>
    cases ev <;> first | rfl | exact absurd rfl hr

/-- One event settles `k` at most once, to where it moves the interval. -/
theorem uptos_handle (n : Node C) (ev : Event C) (k : PeerBin) : uptos k (n.handle ev).2 =
    if (ingestedLog k (n.log k) ev).interval < ((n.handle ev).1.log k).interval
    then [((n.handle ev).1.log k).interval] else [] := by
  by_cases hr : endsInRound ev
  · rw [n.handle_eq_round hr, uptos_round, log_ingested]
  · have hquiet := n.quiet_handle hr
    have hsame : ingestedLog k (n.log k) ev = n.log k := by
      cases ev <;> first | rfl | exact absurd rfl hr
    rw [hsame, hquiet.log, if_neg (lt_irrefl _)]
    refine uptos_eq_nil fun upto hu => ?_
    rcases hquiet.effects _ hu with ⟨p, h⟩ | ⟨k', h⟩ <;> cases h

omit [LinearOrder C] in
/-- While the peer stays, no event ingests the interval away. -/
theorem interval_ingestedLog {k : PeerBin} {ev : Event C} (hev : ev ≠ .peerGone k.peer)
    (l : PeerBinLog C) : (ingestedLog k l ev).interval = l.interval := by
  cases ev with
  | peerGone p =>
    have hp : k.peer ≠ p := fun h => hev (by rw [h])
    rw [ingestedLog, if_neg hp]
  | offerResult peer bin start refs topmost =>
    rw [ingestedLog]
    split
    · exact interval_answeredLog start refs topmost l
    · rfl
  | _ => rfl

theorem interval_handle {n : Node C} {k : PeerBin} {ev : Event C} (hev : ev ≠ .peerGone k.peer) :
    (n.log k).interval ≤ ((n.handle ev).1.log k).interval := by
  rw [log_handle, ← interval_ingestedLog hev]
  split
  · exact PeerBinLog.interval_le_reached _ _
  · exact (interval_ingestedLog hev _).le

/-- While the peer stays, its logs stay. -/
theorem mem_logs_handle {n : Node C} {k : PeerBin} {ev : Event C} (hev : ev ≠ .peerGone k.peer)
    (hk : k ∈ n.logs) : k ∈ (n.handle ev).1.logs := by
  have hround : ∀ n' : Node C, k ∈ n'.logs → k ∈ n'.round.1.logs := by
    intro n' h
    obtain ⟨l, hl⟩ := mem_logs_iff.mp h
    exact mem_logs_iff.mpr ⟨_, by rw [logs_round, hl]; rfl⟩
  cases ev with
  | peerSeen p =>
    simp only [handle]
    split <;> exact hk
  | peerGone p =>
    have hp : k.peer ≠ p := fun h => hev (by rw [h])
    obtain ⟨l, hl⟩ := mem_logs_iff.mp hk
    rw [handle_peerGone]
    exact hround _ (mem_logs_iff.mpr ⟨l, by rw [logs_departed, if_neg hp, hl]⟩)
  | cursorsResult peer cursors => exact ((n.offered_cursorsResult peer cursors).logs k).mpr (.inl hk)
  | offerResult peer bin start refs topmost =>
    rw [handle_offerResult]
    refine hround _ ?_
    by_cases hkk : (⟨peer, bin⟩ : PeerBin) = k
    · subst hkk
      exact n.mem_logs_answerOffer _ _ _ _
    · obtain ⟨l, hl⟩ := mem_logs_iff.mp hk
      exact mem_logs_iff.mpr ⟨l, by rw [logs_answerOffer_ne _ _ _ _ _ hkk, hl]⟩
  | tick => exact (n.offered_tick.logs k).mpr (.inl hk)
  | fetchResult peer bin outcomes =>
    rw [handle_fetchResult]
    exact hround _ hk

/-! ## The high-waters of a run -/

/-- While the peer stays, its intervals only grow. -/
theorem interval_run {k : PeerBin} {evs : List (Event C)} (hev : .peerGone k.peer ∉ evs)
    (n : Node C) : (n.log k).interval ≤ ((n.run evs).1.log k).interval :=
  feed_invariant handle (I := fun n' => (n.log k).interval ≤ (n'.log k).interval) evs
    (fun _ h _ hi => h.trans (interval_handle fun he => hev (he ▸ hi))) (le_refl _)

theorem mem_logs_run {k : PeerBin} {evs : List (Event C)} (hev : .peerGone k.peer ∉ evs)
    {n : Node C} (hk : k ∈ n.logs) : k ∈ (n.run evs).1.logs :=
  feed_invariant handle (I := fun n' => k ∈ n'.logs) evs
    (fun _ h _ hi => mem_logs_handle (fun he => hev (he ▸ hi)) h) hk

/-- While the peer stays, the high-waters settled rise, from above where the interval stood to where
it stands. -/
theorem uptos_run {k : PeerBin} {evs : List (Event C)} (hev : .peerGone k.peer ∉ evs)
    (n : Node C) : (uptos k (n.run evs).2).Pairwise (· < ·)
      ∧ ∀ upto ∈ uptos k (n.run evs).2,
        (n.log k).interval < upto ∧ upto ≤ ((n.run evs).1.log k).interval := by
  induction evs generalizing n with
  | nil => simp [run, uptos]
  | cons ev evs ih =>
    obtain ⟨hne, hev⟩ := not_or.mp (List.mem_cons.not.mp hev)
    obtain ⟨ih₁, ih₂⟩ := ih hev (n.handle ev).1
    have hle := interval_handle (n := n) (Ne.symm hne)
    rw [run_cons]
    dsimp only
    rw [uptos_append, uptos_handle, interval_ingestedLog (Ne.symm hne)]
    split
    · next hlt =>
      refine ⟨List.pairwise_cons.mpr ⟨fun upto hu => (ih₂ upto hu).1, ih₁⟩, fun upto hu => ?_⟩
      rcases List.mem_cons.mp hu with rfl | hu
      · exact ⟨hlt, interval_run hev _⟩
      · exact ⟨hlt.trans (ih₂ upto hu).1, (ih₂ upto hu).2⟩
    · exact ⟨ih₁, fun upto hu => ⟨hle.trans_lt (ih₂ upto hu).1, (ih₂ upto hu).2⟩⟩

/-! ## What an advance passes -/

/-- No position of a peer and bin is offered with two triples. -/
def Consistent (evs : List (Event C)) : Prop :=
  ∀ ⦃peer bin s s' refs refs' t t'⦄, .offerResult peer bin s refs t ∈ evs →
    .offerResult peer bin s' refs' t' ∈ evs →
    ∀ b c c', (b, c) ∈ refs → (b, c') ∈ refs' → c = c'

omit [LinearOrder C] in
theorem Consistent.subset {evs evs' : List (Event C)} (h : Consistent evs') (hs : evs ⊆ evs') :
    Consistent evs :=
  fun _ _ _ _ _ _ _ _ he he' => h (hs he) (hs he')

/-- Some answer covers `b` without naming it. -/
def Unnamed (k : PeerBin) (b : ℕ) (evs : List (Event C)) : Prop :=
  ∃ start refs topmost, .offerResult k.peer k.bin start refs topmost ∈ evs
    ∧ start ≤ b ∧ b ≤ topmost ∧ b ∉ refs.map (·.1)

/-- Where an offered entry `(b, c)` of `k` may be after the events `evs`. -/
def Kept (k : PeerBin) (b : ℕ) (c : C) (evs : List (Event C)) (n : Node C) : Prop :=
  Settled n c ∨ Unnamed k b evs ∨ (n.log k).entries[b]? = some c

/-- A round keeps an entry in the window or settles it. -/
theorem kept_advance {m : PullState C} {l : PeerBinLog C} {b : ℕ} {c : C}
    (h : l.entries[b]? = some c) :
    (c ∈ m.got ∨ c ∈ m.rejected) ∨ (l.advance (settledIn m)).1.entries[b]? = some c := by
  by_cases hb : b ≤ l.reached (settledIn m)
  · exact .inl ((settledIn_iff m c).mp (l.settled_of_le_reached _ h hb))
  · exact .inr ((l.entries_advance _ b c).mpr ⟨h, by omega⟩)

/-- While the peer stays and names it as before, an entry is kept. -/
theorem Kept.handle {k : PeerBin} {b : ℕ} {c : C} {evs : List (Event C)} {n : Node C}
    (h : Kept k b c evs n) {ev : Event C} (hgone : ev ≠ .peerGone k.peer)
    (hname : ∀ start refs topmost, ev = .offerResult k.peer k.bin start refs topmost →
      ∀ c', (b, c') ∈ refs → c = c') : Kept k b c (evs ++ [ev]) (n.handle ev).1 := by
  rcases h with h | ⟨start, refs, topmost, h⟩ | h
  · exact .inl (h.handle ev)
  · exact .inr (.inl ⟨start, refs, topmost, List.mem_append_left _ h.1, h.2⟩)
  have hing : Unnamed k b (evs ++ [ev]) ∨ (ingestedLog k (n.log k) ev).entries[b]? = some c := by
    cases ev with
    | peerGone p =>
      have hp : k.peer ≠ p := fun h => hgone (by rw [h])
      rw [ingestedLog, if_neg hp]
      exact .inr h
    | offerResult peer bin start refs topmost =>
      rw [ingestedLog]
      split
      · next hk =>
        subst hk
        rw [entries_answeredLog start refs topmost _ (PeerBinLog.bounds_of_entry h).1]
        cases hn : named refs b with
        | some c' => exact .inr (by rw [hname _ _ _ rfl c' (mem_of_named hn)]; rfl)
        | none =>
          rw [Option.none_or]
          split
          · next hr => exact .inl ⟨start, refs, topmost, by simp, hr.1, hr.2, named_eq_none.mp hn⟩
          · exact .inr h
      · exact .inr h
    | _ => exact .inr h
  rcases hing with hu | hing
  · exact .inr (.inl hu)
  · rw [Kept, log_handle]
    split
    · exact (kept_advance hing).imp id .inr
    · exact .inr (.inr h)

/-- An answer keeps what it names above the interval. -/
theorem kept_offered {k : PeerBin} {b : ℕ} {c : C} {n : Node C} {start : ℕ} {refs : List (ℕ × C)}
    {topmost : ℕ} (hc : (b, c) ∈ refs) (hb : (n.log k).interval < b)
    (hname : ∀ c', (b, c') ∈ refs → c = c') :
    Kept k b c [] (n.handle (.offerResult k.peer k.bin start refs topmost)).1 := by
  have hing : (ingestedLog k (n.log k)
      (.offerResult k.peer k.bin start refs topmost)).entries[b]? = some c := by
    rw [ingestedLog, if_pos rfl, entries_answeredLog start refs topmost _ hb]
    cases hn : named refs b with
    | some c' => rw [hname c' (mem_of_named hn)]; rfl
    | none => exact absurd (List.mem_map.mpr ⟨_, hc, rfl⟩) (named_eq_none.mp hn)
  rw [Kept, log_handle, endsInRound, if_pos rfl]
  exact (kept_advance hing).imp id .inr

/-- An offered entry is kept for as long as the peer stays. -/
theorem kept_run {k : PeerBin} {b : ℕ} {c : C} {n : Node C} {start : ℕ} {refs : List (ℕ × C)}
    {topmost : ℕ} (hc : (b, c) ∈ refs) (hb : (n.log k).interval < b) (post : List (Event C))
    (hgone : .peerGone k.peer ∉ post)
    (hcon : Consistent (.offerResult k.peer k.bin start refs topmost :: post)) :
    Kept k b c post
      ((n.handle (.offerResult k.peer k.bin start refs topmost)).1.run post).1 := by
  have hself : ∀ c', (b, c') ∈ refs → c = c' := fun c' h =>
    hcon List.mem_cons_self List.mem_cons_self b c c' hc h
  induction post using List.reverseRecOn with
  | nil => simpa only [run_nil] using kept_offered hc hb hself
  | append_singleton post ev ih =>
    rw [run_snoc_fst]
    have hsub := List.cons_subset_cons (.offerResult k.peer k.bin start refs topmost : Event C)
      (List.subset_append_left post [ev])
    refine (ih (fun h => hgone (List.mem_append_left _ h)) (hcon.subset hsub)).handle
      (fun h => hgone (by simp [h])) ?_
    rintro start' refs' topmost' rfl c' hc'
    have hlast : ∀ ev : Event C, ev ∈ post ++ [ev] := fun ev =>
      List.mem_append_right post List.mem_cons_self
    exact hcon List.mem_cons_self (List.mem_cons_of_mem _ (hlast _)) b c c' hc hc'

/-- Durable high-waters never forget. Between two departures of a peer the high-waters settled for
its bin strictly increase and the interval never decreases; and once one is settled, every entry at
or below it that the peer offered, above the interval of that moment, is stored, terminally
rejected, or was in the range of a later answer that did not name it. -/
theorem high_waters_never_forget (cfg : Config) (radius : Bin) (policy : Policy) (held : List C)
    (pre seg : List (Event C)) (k : PeerBin) (hgone : .peerGone k.peer ∉ seg)
    (hcon : Consistent (pre ++ seg)) :
    let n := ((start cfg radius policy held).run pre).1
    ((uptos k (n.run seg).2).Pairwise (· < ·)
      ∧ ∀ i, n.interval k = some i → ∃ j, (n.run seg).1.interval k = some j ∧ i ≤ j)
    ∧ ∀ start refs topmost post, seg = .offerResult k.peer k.bin start refs topmost :: post →
      ∀ b c upto, (b, c) ∈ refs → (n.interval k).getD 0 < b →
      .settled k.peer k.bin upto ∈ (n.run seg).2 → b ≤ upto →
      c ∈ (n.run seg).1.m.got ∨ c ∈ (n.run seg).1.m.rejected ∨ Unnamed k b post := by
  intro n
  have hinterval : (n.interval k).getD 0 = (n.log k).interval := by
    rw [interval, log]
    cases n.logs[k]? <;> rfl
  refine ⟨⟨(uptos_run hgone n).1, fun i hi => ?_⟩, ?_⟩
  · obtain ⟨l, hl, rfl⟩ := Option.map_eq_some_iff.mp hi
    obtain ⟨l', hl'⟩ := mem_logs_iff.mp (mem_logs_run hgone (mem_logs_iff.mpr ⟨l, hl⟩))
    refine ⟨l'.interval, by rw [interval, hl']; rfl, ?_⟩
    simpa [log, hl, hl'] using interval_run hgone n
  · rintro start refs topmost post rfl b c upto hc hb hupto hle
    rw [hinterval] at hb
    have hkept := kept_run hc hb post (fun h => hgone (List.mem_cons_of_mem _ h))
      (hcon.subset (List.subset_append_right _ _))
    have hpassed := ((uptos_run hgone n).2 upto (mem_uptos.mpr hupto)).2
    rw [run_cons] at hpassed ⊢
    rcases hkept with (hg | hr) | hu | he
    · exact .inl hg
    · exact .inr (.inl hr)
    · exact .inr (.inr hu)
    · have := (PeerBinLog.bounds_of_entry he).1
      dsimp only at hpassed
      omega

theorem high_waters_never_forget_delivered :
    let n := ((start Config.production 0 Policy.shipped ([] : List ℕ)).run
      [.peerSeen 1, .cursorsResult 1 [(1, 5)]]).1
    let seg : List (Event ℕ) :=
      [.offerResult 1 1 1 [(3, 7)] 3, .fetchResult 1 1 [(7, .delivered)]]
    .settled 1 1 3 ∈ (n.run seg).2
      ∧ (7 ∈ (n.run seg).1.m.got ∨ 7 ∈ (n.run seg).1.m.rejected
        ∨ Unnamed ⟨1, 1⟩ 3 [(.fetchResult 1 1 [(7, .delivered)] : Event ℕ)]) := by
  have hs : (.settled 1 1 3 : Effect ℕ) ∈
      (((start Config.production 0 Policy.shipped ([] : List ℕ)).run
        [.peerSeen 1, .cursorsResult 1 [(1, 5)]]).1.run
          [.offerResult 1 1 1 [(3, 7)] 3, .fetchResult 1 1 [(7, .delivered)]]).2 := by
    decide +kernel
  refine ⟨hs, (high_waters_never_forget _ _ _ _ _ _ ⟨1, 1⟩ (by simp) ?_).2 1 [(3, 7)] 3 _ rfl
    3 7 3 (by simp) (by decide +kernel) hs (by decide)⟩
  intro peer bin s s' refs refs' t t' h h' b c c' hc hc'
  simp only [List.cons_append, List.nil_append, List.mem_cons, List.not_mem_nil, reduceCtorEq,
    Event.offerResult.injEq, or_false, false_or] at h h'
  obtain ⟨-, -, -, rfl, -⟩ := h
  obtain ⟨-, -, -, rfl, -⟩ := h'
  simp only [List.mem_singleton, Prod.mk.injEq] at hc hc'
  exact hc.2.trans hc'.2.symm

end Melissi.Node
