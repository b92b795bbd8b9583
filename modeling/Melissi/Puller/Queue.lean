import Melissi.Node.Missed
import Melissi.Puller.Placed

/-!
# A queue that is served in turn

The shell answers what is queued in order, the oldest first: cursors with the heads, an offer with
one page, which past the head never comes, and a fetch with what the page from the interval on
reaches. Logs that are never pruned have no gaps, so a fetch misses at most the triple right past
that page. A miss bars one peer and is asked again, so it makes no progress that the rank would see;
but then something else waits further back in the queue, and its turn comes.
-/

namespace Melissi.Puller

open Melissi.Common Melissi.Machine Melissi.Machine.PullState Melissi.Settlement Melissi.Node
open Std (ExtTreeMap ExtTreeSet)

variable {C : Type} [LinearOrder C]

/-! ## Turns -/

/-- The page a fetch is matched against reaches `c`. -/
def Reaches (limit : ℕ) (w : World C) (k : PeerBin) (c : C) : Prop :=
  c ∈ ((w.logs k).page (w.node.log k).interval limit).map (·.2)

/-- What peers that hold what they offered answer. -/
inductive Answers (S : Setting C) (limit : ℕ) (w : World C) : Effect C → Move C → Prop
  | cursors (p : PeerId) : Answers S limit w (.getCursors p) (.cursors p (cursors S w p))
  | offer {p : PeerId} {b : Bin} {start : ℕ} (hpage : (w.logs ⟨p, b⟩).page start limit ≠ []) :
    Answers S limit w (.offer p b start) (pageOffered w p b start limit)
  | fetch {p : PeerId} {b : Bin} {want : List C} {outcomes : List (C × Outcome)}
    (hperm : (outcomes.map (·.1)).Perm want)
    (hreach : ∀ e ∈ outcomes, e.2 = .delivered ∧ Reaches limit w ⟨p, b⟩ e.1
      ∨ e.2 = .missed ∧ ¬ Reaches limit w ⟨p, b⟩ e.1) :
    Answers S limit w (.fetch p b want) (.fetch p b want outcomes)

/-- A settled high-water, which asks for nothing. -/
def Tells : Effect C → Prop
  | .settled _ _ _ => True
  | _ => False

/-- What is left behind: high-waters, and offers past the head. -/
def Spent (w : World C) : Effect C → Prop
  | .settled _ _ _ => True
  | .offer p b start => (w.logs ⟨p, b⟩).head < start
  | _ => False

/-- A world, what of its pending effects is left behind, and the queue of the others. -/
structure Line (C : Type) [LinearOrder C] where
  world : World C
  spent : List (Effect C)
  queue : List (Effect C)

/-- The oldest effect that asks for something is answered, or it is an offer past the head. -/
inductive Turn (S : Setting C) (limit : ℕ) : Line C → Line C → Prop
  | answer {l : Line C} {skipped rest : List (Effect C)} {fx : Effect C} {mv : Move C}
    (hskip : ∀ f ∈ skipped, Tells f) (hq : l.queue = skipped ++ fx :: rest)
    (ha : Answers S limit l.world fx mv) :
    Turn S limit l ⟨{ l.world with shell := l.world.shell.next mv }, l.spent ++ skipped,
      rest ++ (l.world.node.handle mv.event).2⟩
  | block {l : Line C} {skipped rest : List (Effect C)} {p : PeerId} {b : Bin} {start : ℕ}
    (hskip : ∀ f ∈ skipped, Tells f) (hq : l.queue = skipped ++ .offer p b start :: rest)
    (hlt : (l.world.logs ⟨p, b⟩).head < start) :
    Turn S limit l ⟨l.world, l.spent ++ skipped ++ [.offer p b start], rest⟩

/-- Logs that are never pruned, each triple in one bin and none faulty. -/
structure Supply (S : Setting C) (limit : ℕ) (logs : PeerBin → AppendLog C) : Prop where
  limit : 2 ≤ limit
  dense : ∀ k, (logs k).Dense
  oneBin : OneBin logs
  good : ∀ c, ¬ S.bad c

/-! ## What every turn keeps -/

structure Orderly (S : Setting C) (limit : ℕ) (l : Line C) : Prop where
  supply : Supply S limit l.world.logs
  sound : Sound S l.world
  placed : Placed limit l.world
  met : Met S l.world
  unseen : l.world.unseen = []
  pending : l.world.pending = l.spent ++ l.queue
  spent : ∀ fx ∈ l.spent, Spent l.world fx

section Turns

variable {S : Setting C} {limit : ℕ} {l l' : Line C}

omit [LinearOrder C] in
theorem Tells.spent [LinearOrder C] {w : World C} {fx : Effect C} (h : Tells fx) : Spent w fx := by
  cases fx with
  | settled p b upto => trivial
  | _ => cases h

/-- What is answered was neither left behind nor skipped. -/
theorem Answers.not_spent {w : World C} {fx : Effect C} {mv : Move C} (h : Answers S limit w fx mv) :
    ¬ Spent w fx := by
  cases h with
  | offer hpage =>
    have hle := AppendLog.start_le_topmost hpage
    have hhead := AppendLog.topmost_le_head (w.logs _) _ _ |> hle.trans
    exact not_lt.mpr hhead
  | _ => exact id

theorem Orderly.mem_pending (h : Orderly S limit l) {fx : Effect C} (hfx : fx ∈ l.queue) :
    fx ∈ l.world.pending := by
  rw [h.pending]
  exact List.mem_append_right _ hfx

/-- What is pending and not spent is queued. -/
theorem Orderly.mem_queue (h : Orderly S limit l) {fx : Effect C} (hfx : fx ∈ l.world.pending)
    (hs : ¬ Spent l.world fx) : fx ∈ l.queue := by
  rw [h.pending, List.mem_append] at hfx
  exact hfx.resolve_left fun hm => hs (h.spent fx hm)

/-- The answers are moves of the setting, in pages of at most `limit` entries. -/
theorem Orderly.fits (h : Orderly S limit l) {fx : Effect C} {mv : Move C} (hfx : fx ∈ l.queue)
    (ha : Answers S limit l.world fx mv) : Fits S l.world mv ∧ mv.answered = some fx
      ∧ ∀ p b start refs topmost, mv = .offer p b start refs topmost → topmost < start + limit := by
  have hp := h.mem_pending hfx
  cases ha with
  | cursors p => exact ⟨⟨hp, bins_cursors S _ p⟩, rfl, by simp⟩
  | @offer p b start hpage =>
    refine ⟨⟨hp, limit, hpage, rfl, rfl⟩, rfl, fun p' b' start' refs topmost heq => ?_⟩
    obtain ⟨rfl, rfl, rfl, rfl, rfl⟩ := Move.offer.inj heq
    exact (h.supply.dense _).topmost_lt (h.sound.account.starts ⟨p, b⟩ start hp).1 hpage
  | fetch hperm hreach =>
    refine ⟨⟨hp, hperm, fun e he => iff_of_false ?_ (h.supply.good e.1)⟩, rfl, by simp⟩
    rcases hreach e he with ⟨heq, -⟩ | ⟨heq, -⟩ <;> simp [heq]

/-- What stays pending when the oldest effect is answered. -/
theorem Orderly.rest (h : Orderly S limit l) {skipped rest : List (Effect C)} {fx : Effect C}
    {mv : Move C} (hskip : ∀ f ∈ skipped, Tells f) (hq : l.queue = skipped ++ fx :: rest)
    (ha : Answers S limit l.world fx mv) : l.world.shell.rest mv = l.spent ++ skipped ++ rest := by
  have hfx : fx ∈ l.queue := by simp [hq]
  have hns := ha.not_spent
  have hno : fx ∉ l.spent ++ skipped := by
    rw [List.mem_append, not_or]
    exact ⟨fun hm => hns (h.spent fx hm), fun hm => hns (hskip fx hm).spent⟩
  have hpend := h.pending
  rw [World.pending, hq, ← List.append_assoc] at hpend
  rw [Shell.rest, (h.fits hfx ha).2.1, Option.elim_some, hpend, List.erase_append_right _ hno,
    List.erase_cons_head]

/-- Every turn keeps this. -/
theorem Orderly.turn (h : Orderly S limit l) (ht : Turn S limit l l') : Orderly S limit l' := by
  cases ht with
  | @answer skipped rest fx mv hskip hq ha =>
    have hfx : fx ∈ l.queue := by simp [hq]
    obtain ⟨hf, -, hlimit⟩ := h.fits hfx ha
    refine ⟨h.supply, h.sound.move mv hf rfl rfl (.inl rfl),
      h.placed.move h.sound h.supply.oneBin hf hlimit rfl rfl, h.met.move h.sound hf rfl, h.unseen,
      ?_, fun f hm => ?_⟩
    · change l.world.shell.rest mv ++ (l.world.node.handle mv.event).2 = _
      rw [h.rest hskip hq ha, List.append_assoc]
    · refine (List.mem_append.mp hm).elim (fun hm => ?_) fun hm => (hskip f hm).spent
      have hs := h.spent f hm
      cases f <;> exact hs
  | @block skipped rest p b start hskip hq hlt =>
    refine ⟨h.supply, h.sound, h.placed, h.met, h.unseen, ?_, fun f hm => ?_⟩
    · rw [h.pending, hq]
      simp
    · rcases List.mem_append.mp hm with hm | hm
      · exact (List.mem_append.mp hm).elim (h.spent f) fun hm => (hskip f hm).spent
      · rw [List.mem_singleton.mp hm]
        exact hlt

/-! ## What a fetch misses -/

/-- A fetch that misses all it wants, or nothing that is asked at all. -/
def Idle (limit : ℕ) (w : World C) : Effect C → Prop
  | .settled _ _ _ => True
  | .fetch p b want => ∀ c ∈ want, ¬ Reaches limit w ⟨p, b⟩ c
  | _ => False

omit [LinearOrder C] in
theorem Tells.idle [LinearOrder C] {w : World C} {fx : Effect C} (h : Tells fx) :
    Idle limit w fx := by
  cases fx with
  | settled p b upto => trivial
  | _ => cases h

section Fetch

variable {p : PeerId} {b : Bin} {want : List C}

/-- What is wanted stands past the interval. -/
theorem Orderly.unsettled (h : Orderly S limit l) (hp : .fetch p b want ∈ l.queue) {c : C}
    (hc : c ∈ want) : ¬ Settled l.world.node c := by
  have hsafe := h.sound.account.safe
  have hleased := h.sound.account.accounted.leased p b want (h.mem_pending hp) c hc
  exact fun hs => hs.elim (hsafe.claims.unstored _ _ hleased)
    (hsafe.claims.unrejected _ (hsafe.claims.arrived _ _ hleased))

/-- What a fetch misses stands right past the page from the interval on. -/
theorem Orderly.missed_at (h : Orderly S limit l) (hp : .fetch p b want ∈ l.queue) {c : C}
    (hc : c ∈ want) (hmiss : ¬ Reaches limit l.world ⟨p, b⟩ c) :
    0 < (l.world.node.log ⟨p, b⟩).interval
      ∧ (l.world.node.log ⟨p, b⟩).topmost = (l.world.node.log ⟨p, b⟩).interval + limit
      ∧ ((l.world.node.log ⟨p, b⟩).topmost, c) ∈ (l.world.logs ⟨p, b⟩).entries := by
  obtain ⟨x, hx, hle⟩ := h.placed.wanted p b want (h.mem_pending hp) c hc
  have hlt : (l.world.node.log ⟨p, b⟩).interval < x := by
    by_contra hnot
    exact h.unsettled hp hc ((h.sound.covered.tracks _).settled_of_le hx (Nat.le_of_not_lt hnot))
  have hreach := h.placed.reach ⟨p, b⟩
  have hout : max (l.world.node.log ⟨p, b⟩).interval 1 + limit ≤ x := by
    by_contra hin
    have hpage := (h.supply.dense _).mem_page hx hlt.le (Nat.lt_of_not_le hin)
    exact hmiss (List.mem_map.mpr ⟨_, hpage, rfl⟩)
  obtain rfl : x = (l.world.node.log ⟨p, b⟩).topmost := by omega
  exact ⟨by omega, by omega, hx⟩

/-- So it misses at most one of the triples it wants. -/
theorem Orderly.not_idle (h : Orderly S limit l) (hp : .fetch p b want ∈ l.queue)
    (hlen : 2 ≤ want.length) : ¬ Idle limit l.world (.fetch p b want) := by
  intro hidle
  have hnd := (h.sound.account.batches p b want (h.mem_pending hp)).2
  match want, hlen with
  | c :: d :: want, _ =>
    have hmiss : ∀ e ∈ c :: d :: want, _ := fun e he => (h.missed_at hp he (hidle e he)).2.2
    have heq := (l.world.logs ⟨p, b⟩).unique (hmiss c (by simp)) (hmiss d (by simp))
    simp [heq] at hnd

/-- Where a fetch misses all it wants the entry right past the interval is unsettled, and the same
peer delivers it. -/
theorem Orderly.stalled (h : Orderly S limit l) (hp : .fetch p b want ∈ l.queue)
    (hidle : Idle limit l.world (.fetch p b want)) : ∃ c,
      (l.world.node.log ⟨p, b⟩).entries[(l.world.node.log ⟨p, b⟩).interval + 1]? = some c
        ∧ ¬ Settled l.world.node c := by
  obtain ⟨c, hc⟩ := List.exists_mem_of_ne_nil _
    (h.sound.account.batches p b want (h.mem_pending hp)).1
  obtain ⟨-, htop, -⟩ := h.missed_at hp hc (hidle c hc)
  have := h.supply.limit
  exact (h.sound.covered.stuck ⟨p, b⟩).resolve_left (by omega)

/-- The entry right past an interval is in the page from the interval on. -/
theorem Orderly.reaches_next (h : Orderly S limit l) {k : PeerBin} {c : C}
    (he : (l.world.node.log k).entries[(l.world.node.log k).interval + 1]? = some c) :
    Reaches limit l.world k c := by
  have hsub := (h.sound.covered.tracks k).sub _ _ he
  have := h.supply.limit
  have hpage := show (_, c) ∈ (l.world.logs k).page (l.world.node.log k).interval limit from
    (h.supply.dense k).mem_page hsub (Nat.le_succ _) (by dsimp only; omega)
  exact List.mem_map.mpr ⟨_, hpage, rfl⟩

end Fetch

/-! ## A turn that misses everything -/

/-- What a fetch that missed everything leaves as it is, and what it does to the bars. -/
structure Stalls (S : Setting C) (w w' : World C) (p : PeerId) (want : List C) : Prop where
  logs : w'.logs = w.logs
  rank : rank S w' = rank S w
  settled : ∀ c, Settled w'.node c ↔ Settled w.node c
  interval : ∀ k, (w'.node.log k).interval = (w.node.log k).interval
  next : ∀ k, (w'.node.log k).entries[(w'.node.log k).interval + 1]?
    = (w.node.log k).entries[(w.node.log k).interval + 1]?
  /-- The bars of what else is leased stay. -/
  kept : ∀ c q, w.node.m.Leased c q → c ∉ want → ∀ r, w'.node.m.Barred c r ↔ w.node.m.Barred c r
  /-- What was missed is barred from its peer too, or from nobody where that bars all holders. -/
  barred : ∀ c ∈ want, (∀ q, w'.node.m.Barred c q ↔ w.node.m.Barred c q ∨ p = q)
    ∨ (∀ q, ¬ w'.node.m.Barred c q) ∧ ∀ q, w.node.m.Held c q → w.node.m.Barred c q ∨ p = q

/-- A rank sees nothing of a move that settles nothing, covers nothing and asks for no offer. -/
theorem rank_stalled {w w' : World C} {mv : Move C} {p : PeerId} {b : Bin} {want : List C}
    (hf : Fits S w mv) (ha : mv.answered = some (.fetch p b want))
    (hw : w' = { w with shell := w.shell.next mv })
    (hsettled : ∀ c, Settled w'.node c ↔ Settled w.node c)
    (htopmost : ∀ k, (w'.node.log k).topmost = (w.node.log k).topmost)
    (hoffers : ∀ k, offersTo k (w.node.handle mv.event).2 = 0) : rank S w' = rank S w := by
  have hnone : ∀ p, mv.event ≠ .peerSeen p := fun p heq => by
    cases mv <;> simp [Move.event, Move.answered] at heq ha
  have hshell : w'.shell = w.shell.next mv := by rw [hw]
  have hlogs : w'.logs = w.logs := by rw [hw]
  have hasked := asked_next hf hnone
  rw [ha, ← hshell] at hasked
  have hbehind : behind w'.node = behind w.node := by
    funext fx
    cases fx with
    | offer q i start => rw [behind, behind, htopmost]
    | _ => rfl
  have hcount := countP_next hf (behind w.node)
  have hno : (w.node.handle mv.event).2.countP (behind w.node) = 0 := by
    rw [List.countP_eq_zero]
    intro fx hfx hb
    cases fx with
    | offer q i start =>
      have hpos : 0 < offersTo ⟨q, i⟩ (w.node.handle mv.event).2 :=
        List.countP_pos_iff.mpr ⟨_, hfx, by simp⟩
      rw [hoffers] at hpos
      exact absurd hpos (lt_irrefl 0)
    | _ => cases hb
  rw [ha, hno, ← hshell] at hcount
  have hbudget : budget w' = budget w := by
    rw [budget, budget, World.pending, World.pending]
    simp only [Option.toList_some, List.countP_singleton, asksCursors] at hasked
    rw [hw] at hasked ⊢
    simpa using hasked
  have hunsettled : unsettled S w' = unsettled S w := by
    rw [unsettled, unsettled, standing_congr S hlogs, hw]
    exact congrArg _ (count_congr fun e _ => not_congr (by rw [← hw]; exact hsettled e.2.2))
  have huncovered : uncovered S w' = uncovered S w := by
    rw [uncovered, uncovered, standing_congr S hlogs]
    simp only [htopmost]
  rw [rank, rank, hbudget, hunsettled, huncovered, hbehind, World.pending, World.pending]
  simp only [Option.toList_some, List.countP_singleton, behind] at hcount
  simpa using hcount

/-- A fetch that misses all it wants brings misses alone. -/
theorem Answers.missed {w : World C} {p : PeerId} {b : Bin} {want : List C} {mv : Move C}
    (h : Answers S limit w (.fetch p b want) mv) (hidle : Idle limit w (.fetch p b want)) :
    ∃ outcomes, mv = .fetch p b want outcomes ∧ (outcomes.map (·.1)).Perm want
      ∧ ∀ e ∈ outcomes, e.2 = .missed := by
  cases h with
  | fetch hperm hreach =>
    refine ⟨_, rfl, hperm, fun e he => ?_⟩
    have hwant := hperm.subset (List.mem_map.mpr ⟨e, he, rfl⟩)
    exact ((hreach e he).resolve_left fun hr => hidle e.1 hwant hr.2).1

theorem Orderly.stalls (h : Orderly S limit l) {p : PeerId} {b : Bin} {want : List C} {mv : Move C}
    (hp : .fetch p b want ∈ l.queue) (hidle : Idle limit l.world (.fetch p b want))
    (ha : Answers S limit l.world (.fetch p b want) mv) {w' : World C}
    (hw : w' = { l.world with shell := l.world.shell.next mv }) :
    Stalls S l.world w' p want ∧ ∀ k, offersTo k (l.world.node.handle mv.event).2 = 0 := by
  obtain ⟨hf, hans, -⟩ := h.fits hp ha
  obtain ⟨outcomes, rfl, hperm, hmiss⟩ := ha.missed hidle
  have hpend := h.mem_pending hp
  have hacc := h.sound.account
  have hnd := hperm.nodup_iff.mpr (hacc.batches p b want hpend).2
  obtain ⟨hgot, hrej⟩ := settled_missed (n := l.world.node) (p := p) hmiss
  have hset : ∀ c, Settled (l.world.node.reported p outcomes) c ↔ Settled l.world.node c := fun c => by
    rw [Settled, Settled, hgot, hrej]
  have hlog := fun k => log_missed (n := l.world.node) (p := p) hmiss (h.sound.covered.stuck k)
  have hoffers : ∀ k, offersTo k (l.world.node.handle (.fetchResult p b outcomes)).2 = 0 := fun k => by
    rw [handle_fetchResult]
    exact offersTo_missed hmiss (h.sound.found.paced k) (h.sound.covered.stuck k)
  have hnode : w'.node = (l.world.node.reported p outcomes).round.1 := by
    rw [hw, ← handle_fetchResult _ _ b]
    rfl
  have hsettled : ∀ c, Settled w'.node c ↔ Settled l.world.node c := fun c => by
    rw [hnode, Settled, (settled_round _).1, (settled_round _).2.1]
    exact hset c
  have hrank : rank S w' = rank S l.world := rank_stalled hf hans hw hsettled
    (fun k => by rw [hnode]; exact (hlog k).2.1) hoffers
  refine ⟨⟨by rw [hw], hrank, hsettled, fun k => ?_, fun k => ?_, fun c q hl hc r => ?_,
    fun c hc => ?_⟩, hoffers⟩
  · rw [hnode]
    exact (hlog k).1
  · rw [hnode, (hlog k).1]
    exact (hlog k).2.2
  · have hno : ∀ e ∈ outcomes, e.1 ≠ c := fun e he heq =>
      hc (heq ▸ hperm.subset (List.mem_map.mpr ⟨e, he, rfl⟩))
    have hl' : (l.world.node.reported p outcomes).m.Leased c q :=
      (leased_reported fun e he => .inl (hno e he)).mpr hl
    have huns : ¬ Settled l.world.node c := fun hs => hs.elim
      (hacc.safe.claims.unstored _ _ hl)
      (hacc.safe.claims.unrejected _ (hacc.safe.claims.arrived _ _ hl))
    rw [hnode, barred_leased hl' ((hset c).not.mpr huns)]
    refine (barred_ingested hacc.cfg (.fetchResult p b outcomes) c r).trans (or_iff_left ?_)
    rintro ⟨-, pre, post, heq, -⟩
    exact hno (c, .missed) (by simp [heq]) rfl
  · obtain ⟨⟨c, o⟩, he, rfl⟩ := List.mem_map.mp (hperm.symm.subset hc)
    obtain rfl : o = .missed := hmiss _ he
    rw [hnode]
    exact barred_missed hacc.cfg hnd he (hacc.accounted.leased p b want hpend c hc)
      ((hset c).not.mpr (h.unsettled hp hc))

/-! ## What waits in the queue -/

open Classical in
/-- How many misses `c` can still have before it is asked of the peer of `k`: its bars have to be
lifted first where that peer is barred. -/
noncomputable def patience (S : Setting C) (w : World C) (k : PeerBin) (c : C) : ℕ :=
  (if w.node.m.Barred c k.peer then S.peers.toFinset.card + 1 else 0)
    + count S.peers.toFinset fun q => ¬ w.node.m.Barred c q

/-- A triple that was not asked for is waited for as before. -/
theorem Stalls.patience_eq {w w' : World C} {p : PeerId} {want : List C} (h : Stalls S w w' p want)
    {c : C} {q : PeerId} (hl : w.node.m.Leased c q) (hc : c ∉ want) (k : PeerBin) :
    patience S w' k c = patience S w k c := by
  simp only [patience, h.kept c q hl hc]

/-- A miss of another peer takes patience. -/
theorem Stalls.patience_lt {w w' : World C} {p : PeerId} {want : List C} (h : Stalls S w w' p want)
    {c : C} (hc : c ∈ want) (hp : p ∈ S.peers) (hbar : ¬ w.node.m.Barred c p) {k : PeerBin}
    (hne : p ≠ k.peer) (hheld : w.node.m.Held c k.peer) : patience S w' k c < patience S w k c := by
  rw [patience, patience]
  rcases h.barred c hc with hmore | ⟨hnone, hall⟩
  · have hlt : (count S.peers.toFinset fun q => ¬ w'.node.m.Barred c q)
        < count S.peers.toFinset fun q => ¬ w.node.m.Barred c q :=
      count_lt p (List.mem_toFinset.mpr hp) hbar (by simp [hmore]) fun q _ hq hb =>
        hq ((hmore q).mpr (.inl hb))
    have hsame : w'.node.m.Barred c k.peer ↔ w.node.m.Barred c k.peer := by
      rw [hmore, or_iff_left hne]
    simp only [hsame]
    omega
  · have hle := count_le_card S.peers.toFinset fun q => ¬ w'.node.m.Barred c q
    rw [if_neg (hnone k.peer), if_pos ((hall k.peer hheld).resolve_right hne)]
    omega

/-- What is in the queue that its turn makes progress, and what is before it. -/
inductive Waits (S : Setting C) (limit : ℕ) (l : Line C) : ℕ ×ₗ ℕ → Prop
  /-- Nothing asks for anything. -/
  | still (h : ∀ fx ∈ l.queue, Tells fx) : Waits S limit l (toLex (0, 0))
  /-- The turn of the effect settles something, or takes it off for good. -/
  | fruitful {fx : Effect C} {i : ℕ} (hi : l.queue[i]? = some fx) (hfx : ¬ Idle limit l.world fx) :
    Waits S limit l (toLex (0, i))
  /-- The entry past an interval is asked for, of whichever peer. -/
  | patient {k : PeerBin} {c : C} {p : PeerId} {b : Bin} {want : List C} {i : ℕ}
    (he : (l.world.node.log k).entries[(l.world.node.log k).interval + 1]? = some c)
    (hs : ¬ Settled l.world.node c) (hi : l.queue[i]? = some (.fetch p b want)) (hc : c ∈ want) :
    Waits S limit l (toLex (patience S l.world k c + 1, i))

/-- The entry past an interval is asked for, or some other fetch makes progress. -/
theorem Orderly.waits_next (h : Orderly S limit l) {k : PeerBin} {c : C}
    (he : (l.world.node.log k).entries[(l.world.node.log k).interval + 1]? = some c)
    (hs : ¬ Settled l.world.node c) :
    ∃ t i, t ≤ patience S l.world k c + 1 ∧ Waits S limit l (toLex (t, i)) := by
  obtain ⟨hheld, harr⟩ := h.sound.covered.held k _ c he hs
  rcases h.placed.filled c harr (fun hg => hs (.inl hg)) ⟨_, hheld⟩ with
    ⟨p, hl⟩ | ⟨p, b, want, hp, hlen⟩
  · obtain ⟨b, want, hp, hc⟩ := h.sound.account.wanted c p hl
    obtain ⟨i, hi⟩ := List.mem_iff_getElem?.mp (h.mem_queue hp id)
    exact ⟨_, i, le_rfl, .patient he hs hi hc⟩
  · have hq := h.mem_queue hp id
    obtain ⟨i, hi⟩ := List.mem_iff_getElem?.mp hq
    exact ⟨0, i, Nat.zero_le _, .fruitful hi (h.not_idle hq hlen)⟩

/-- Something always waits, unless nothing asks for anything. -/
theorem Orderly.waits (h : Orderly S limit l) : ∃ t, Waits S limit l t := by
  by_cases hover : ∀ fx ∈ l.queue, Tells fx
  · exact ⟨_, .still hover⟩
  · push Not at hover
    obtain ⟨fx, hfx, htells⟩ := hover
    by_cases hidle : Idle limit l.world fx
    · cases fx with
      | fetch p b want =>
        obtain ⟨c, he, hs⟩ := h.stalled hfx hidle
        obtain ⟨t, i, -, hwait⟩ := h.waits_next he hs
        exact ⟨_, hwait⟩
      | settled p b upto => exact absurd trivial htells
      | _ => exact hidle.elim
    · obtain ⟨i, hi⟩ := List.mem_iff_getElem?.mp hfx
      exact ⟨_, .fruitful hi hidle⟩

omit [LinearOrder C] in
/-- What asks for something is the effect whose turn it is, or comes after it. -/
theorem later {queue skipped rest : List (Effect C)} {f fx : Effect C} {i : ℕ}
    (hskip : ∀ f ∈ skipped, Tells f) (hq : queue = skipped ++ f :: rest) (hi : queue[i]? = some fx)
    (hfx : ¬ Tells fx) : fx = f ∨ ∃ j < i, rest[j]? = some fx := by
  rw [hq] at hi
  rcases Nat.lt_or_ge i skipped.length with hlt | hge
  · rw [List.getElem?_append_left hlt] at hi
    exact absurd (hskip fx (List.mem_of_getElem? hi)) hfx
  · rw [List.getElem?_append_right hge] at hi
    cases hj : i - skipped.length with
    | zero =>
      rw [hj] at hi
      exact .inl (Option.some.inj hi).symm
    | succ j =>
      rw [hj, List.getElem?_cons_succ] at hi
      exact .inr ⟨j, by omega, hi⟩

omit [LinearOrder C] in
/-- What is queued keeps its place when effects are queued behind it. -/
theorem getElem?_rest {rest fxs : List (Effect C)} {j : ℕ} {fx : Effect C} (h : rest[j]? = some fx) :
    (rest ++ fxs)[j]? = some fx := by
  rw [List.getElem?_append_left (List.getElem?_eq_some_iff.mp h).1]
  exact h

/-- The turn of a fetch that misses everything brings what waits nearer. -/
theorem Waits.stalled (h : Orderly S limit l) {t : ℕ ×ₗ ℕ} (hwait : Waits S limit l t) {p : PeerId}
    {b : Bin} {want : List C} {mv : Move C} {skipped rest : List (Effect C)}
    (hskip : ∀ f ∈ skipped, Tells f) (hq : l.queue = skipped ++ .fetch p b want :: rest)
    (hidle : Idle limit l.world (.fetch p b want))
    (ha : Answers S limit l.world (.fetch p b want) mv)
    (hl' : l' = ⟨{ l.world with shell := l.world.shell.next mv }, l.spent ++ skipped,
      rest ++ (l.world.node.handle mv.event).2⟩) :
    ∃ t', t' < t ∧ Waits S limit l' t' := by
  have hp : .fetch p b want ∈ l.queue := by simp [hq]
  have h' : Orderly S limit l' := hl' ▸ h.turn (.answer hskip hq ha)
  have hstall := (h.stalls hp hidle ha (congrArg Line.world hl')).1
  have hrest' : ∀ {j fx}, rest[j]? = some fx → l'.queue[j]? = some fx := fun hj => by
    rw [congrArg Line.queue hl']
    exact getElem?_rest hj
  have hreach : ∀ k c, Reaches limit l'.world k c ↔ Reaches limit l.world k c := fun k c => by
    rw [Reaches, Reaches, hstall.logs, hstall.interval]
  cases hwait with
  | still hover => exact (hover _ hp).elim
  | @fruitful fx i hi hfx =>
    rcases later hskip hq hi (fun htells => hfx htells.idle) with
      rfl | ⟨j, hj, hrest⟩
    · exact absurd hidle hfx
    · refine ⟨toLex (0, j), Prod.Lex.toLex_lt_toLex.mpr (.inr ⟨rfl, hj⟩), .fruitful (hrest' hrest) ?_⟩
      cases fx with
      | fetch q i' want' => simpa only [Idle, hreach] using hfx
      | _ => exact hfx
  | @patient k c q b' want' i he hs hi hc =>
    have hqp := h.mem_pending (List.mem_of_getElem? hi)
    have hacc := h.sound.account
    have hl := hacc.accounted.leased q b' want' hqp c hc
    have he' : (l'.world.node.log k).entries[(l'.world.node.log k).interval + 1]? = some c := by
      rw [hstall.next]
      exact he
    have hs' : ¬ Settled l'.world.node c := by rwa [hstall.settled]
    by_cases hcw : c ∈ want
    · -- the turn of the fetch itself: another peer missed it
      have hne : p ≠ k.peer := by
        rintro rfl
        obtain ⟨x, hx, -⟩ := h.placed.wanted _ b want (h.mem_pending hp) c hcw
        have hb : b = k.bin := h.supply.oneBin _ k _ _ c hx ((h.sound.covered.tracks k).sub _ _ he)
        exact hidle c hcw (hb ▸ h.reaches_next he)
      have hleased := hacc.accounted.leased p b want (h.mem_pending hp) c hcw
      have hlt := hstall.patience_lt hcw (h.met.mem_peers h.sound (h.mem_pending hp))
        (hacc.safe.claims.unbarred _ _ hleased) hne (h.sound.covered.held k _ c he hs).1
      obtain ⟨t, j, hle, hwait⟩ := h'.waits_next he' hs'
      exact ⟨_, Prod.Lex.toLex_lt_toLex.mpr (.inl (by omega)), hwait⟩
    · rcases later hskip hq hi id with heq | ⟨j, hj, hrest⟩
      · obtain ⟨-, -, rfl⟩ := Effect.fetch.inj heq
        exact absurd hc hcw
      · refine ⟨toLex (patience S l'.world k c + 1, j), Prod.Lex.toLex_lt_toLex.mpr (.inr ⟨?_, hj⟩),
          .patient he' hs' (hrest' hrest) hc⟩
        rw [hstall.patience_eq hl hcw]

/-! ## Every turn makes progress -/

/-- An offer. -/
def asksOffer : Effect C → Bool
  | .offer _ _ _ => true
  | _ => false

/-- The rank of the world, the offers that are queued, and how long it takes to what waits. -/
noncomputable def remaining (S : Setting C) (l : Line C) (t : ℕ ×ₗ ℕ) :
    (ℕ ×ₗ ℕ ×ₗ ℕ ×ₗ ℕ) ×ₗ ℕ ×ₗ ℕ ×ₗ ℕ :=
  toLex (rank S l.world, toLex (l.queue.countP asksOffer, t))

/-- A move after which a wanted triple is settled lowers the rank. -/
theorem rank_lt_of_settles {w w' : World C} (h : Sound S w) {mv : Move C} {p : PeerId} {b : Bin}
    {want : List C} (hf : Fits S w mv) (ha : mv.answered = some (.fetch p b want))
    (hw : w' = { w with shell := w.shell.next mv }) {c : C} (hc : c ∈ want)
    (hs : Settled w'.node c) : rank S w' < rank S w := by
  have hp := hf.answered _ ha
  have hshell : w'.shell = w.shell.next mv := by rw [hw]
  have hlogs : w'.logs = w.logs := by rw [hw]
  have hleased := h.account.accounted.leased p b want hp c hc
  have harr := h.account.safe.claims.arrived _ _ hleased
  have hunset : ¬ Settled w.node c := fun hn => hn.elim
    (h.account.safe.claims.unstored _ _ hleased) (h.account.safe.claims.unrejected _ harr)
  refine Prod.Lex.toLex_lt_toLex'.mpr ⟨le_of_eq ?_, fun _ => Prod.Lex.toLex_lt_toLex.mpr (.inl ?_)⟩
  · have hasked := asked_next hf fun p heq => by
      cases mv <;> simp [Move.event, Move.answered] at heq ha
    rw [ha, ← hshell] at hasked
    rw [budget, budget, World.pending, World.pending]
    simp only [Option.toList_some, List.countP_singleton, asksCursors] at hasked
    rw [hw] at hasked ⊢
    simpa using hasked
  · obtain ⟨k, hk, i, hi⟩ := h.covered.arrived _ harr
    have hmiss : w'.misses = w.misses := by rw [hw]
    rw [unsettled, unsettled, standing_congr S hlogs, hmiss]
    refine Nat.add_lt_add_left (count_lt (k, i, c) ((mem_standing S w k i c).mpr ⟨hk, hi⟩) hunset
      (not_not.mpr hs) fun e _ hn hd => hn ?_) _
    rw [World.node_move hshell]
    exact hd.handle _

/-- An answer that is not idle lowers the rank. -/
theorem Orderly.rank_answer (h : Orderly S limit l) {fx : Effect C} {mv : Move C} (hfx : fx ∈ l.queue)
    (ha : Answers S limit l.world fx mv) (hidle : ¬ Idle limit l.world fx) {w' : World C}
    (hw : w' = { l.world with shell := l.world.shell.next mv }) : rank S w' < rank S l.world := by
  have hshell : w'.shell = l.world.shell.next mv := by rw [hw]
  obtain ⟨hf, hans, -⟩ := h.fits hfx ha
  cases ha with
  | cursors p =>
    refine rank_lt_of_budget ?_
    have hasked := asked_next hf (by simp [Move.event])
    rw [← hshell] at hasked
    simp only [Move.answered, Option.toList_some, List.countP_singleton, asksCursors] at hasked
    rw [budget, budget, World.pending, World.pending, ← hasked, hw]
    simp
  | offer hpage =>
    exact rank_offer h.sound (h.mem_pending hfx) hpage hshell (by rw [hw]) (by rw [hw]) (by rw [hw])
  | @fetch p b want outcomes hperm hreach =>
    -- some want is delivered
    simp only [Idle, not_forall, not_not] at hidle
    obtain ⟨c, hc, hin⟩ := hidle
    obtain ⟨e, he, rfl⟩ := List.mem_map.mp (hperm.symm.subset hc)
    have hdeliv := (hreach e he).resolve_right fun hn => hn.2 hin
    refine rank_lt_of_settles h.sound hf hans hw hc (.inl ?_)
    rw [World.node_move hshell]
    exact ((h.sound.delivers hf).2 e.1).mpr (.inr (hdeliv.1 ▸ he))

omit [LinearOrder C] in
/-- Nothing that is skipped is an offer. -/
theorem countP_skipped {skipped : List (Effect C)} (hskip : ∀ f ∈ skipped, Tells f) :
    skipped.countP asksOffer = 0 := by
  rw [List.countP_eq_zero]
  intro f hf ha
  cases f with
  | offer p b start => exact hskip _ hf
  | _ => cases ha

/-- Every turn lowers what remains. -/
theorem Orderly.lowers (h : Orderly S limit l) {t : ℕ ×ₗ ℕ} (hwait : Waits S limit l t)
    (ht : Turn S limit l l') : ∃ t', (Orderly S limit l' ∧ Waits S limit l' t')
      ∧ remaining S l' t' < remaining S l t := by
  have h' := h.turn ht
  cases ht with
  | @answer skipped rest fx mv hskip hq ha =>
    have hfx : fx ∈ l.queue := by simp [hq]
    generalize hl' : (⟨_, _, _⟩ : Line C) = l' at h' ⊢
    have hworld := (congrArg Line.world hl').symm
    by_cases hidle : Idle limit l.world fx
    · obtain ⟨p, b, want, rfl⟩ : ∃ p b want, fx = .fetch p b want := by
        cases fx with
        | fetch p b want => exact ⟨p, b, want, rfl⟩
        | settled p b upto => exact absurd trivial ha.not_spent
        | _ => exact hidle.elim
      obtain ⟨hstall, hnone⟩ := h.stalls hfx hidle ha hworld
      obtain ⟨t', hlt, hwait'⟩ := hwait.stalled h hskip hq hidle ha hl'.symm
      refine ⟨t', ⟨h', hwait'⟩, Prod.Lex.toLex_lt_toLex.mpr (.inr ⟨hstall.rank,
        Prod.Lex.toLex_lt_toLex.mpr (.inr ⟨?_, hlt⟩)⟩)⟩
      have hno : (l.world.node.handle mv.event).2.countP asksOffer = 0 := by
        rw [List.countP_eq_zero]
        intro f hf ha
        cases f with
        | offer q i start =>
          refine absurd (List.countP_pos_iff.mpr ⟨_, hf, ?_⟩) (hnone ⟨q, i⟩).not_gt
          simp
        | _ => cases ha
      rw [← congrArg Line.queue hl', hq]
      simp [countP_skipped hskip, hno, asksOffer]
    · obtain ⟨t', hwait'⟩ := h'.waits
      exact ⟨t', ⟨h', hwait'⟩, Prod.Lex.toLex_lt_toLex.mpr (.inl (h.rank_answer hfx ha hidle hworld))⟩
  | @block skipped rest p b start hskip hq hlt =>
    obtain ⟨t', hwait'⟩ := h'.waits
    refine ⟨t', ⟨h', hwait'⟩, Prod.Lex.toLex_lt_toLex.mpr (.inr ⟨rfl,
      Prod.Lex.toLex_lt_toLex.mpr (.inl ?_)⟩)⟩
    rw [hq, List.countP_append, countP_skipped hskip, List.countP_cons]
    simp [asksOffer]

/-- The turns come to an end. -/
theorem Orderly.acc (h : Orderly S limit l) : Acc (Function.swap (Turn S limit)) l := by
  obtain ⟨t, hwait⟩ := h.waits
  exact acc_of_follows (R := fun l t => Orderly S limit l ∧ Waits S limit l t) (remaining S)
    (fun l t l' hR ht => hR.1.lowers hR.2 ht) ⟨h, hwait⟩

/-- Where nothing queued asks for anything the world has converged. -/
theorem Orderly.converged (h : Orderly S limit l) (hend : ∀ fx ∈ l.queue, Tells fx) :
    Converged S l.world := by
  have hspent : ∀ fx ∈ l.world.pending, Spent l.world fx := fun fx hfx => by
    by_contra hno
    exact hno (hend fx (h.mem_queue hfx hno)).spent
  refine Quiescent.converged (fun w' hr => ?_) h.sound
  cases hr with
  | announce hp =>
    rw [h.unseen] at hp
    cases hp
  | cursors hp => exact hspent _ hp
  | offer hp hpage =>
    have hle := (AppendLog.start_le_topmost hpage).trans (AppendLog.topmost_le_head _ _ _)
    exact not_lt.mpr hle (hspent _ hp)
  | fetch hp => exact hspent _ hp

end Turns

end Melissi.Puller
