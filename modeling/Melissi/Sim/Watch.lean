import Melissi.Sim.Replication

/-!
# The neighbourhood as its pullers watch it

A world that mirrors the neighbourhood follows it: a request changes no world, a response is a move
of the puller it goes to and nothing to the others, and what a node stores is appended to its log
wherever it is seen. So does the world of a node that sees some of the others only.
-/

namespace Melissi.Sim

open Melissi.Common Melissi.Machine Melissi.Machine.PullState Melissi.Settlement Melissi.Node
  Melissi.Puller
open Std (ExtTreeMap ExtTreeSet)

theorem unfaulty (held : List Triple) : ∀ t ∈ held, ¬ (fun _ => false : Triple → Bool) t :=
  fun _ _ => Bool.false_ne_true

/-- What one node pulls from when it sees these peers. Nobody's entries are faulty. -/
def among (policy : Policy) (hwin : 1 ≤ policy.window) (peers : List PeerId)
    (held : List Triple) : Setting Triple where
  policy := policy
  radius := radius
  held := held
  peers := peers
  bins _ := bins
  bad _ := false
  window := hwin
  held_good := unfaulty held

/-- The world of a puller that mirrors the neighbourhood at a node. -/
structure Watches (S : Setting Triple) (s : Sim) (i : ℕ) (w : World Triple) : Prop where
  sound : Sound S w
  met : Met S w
  mirrors : Mirrors s i w

section

variable {policy : Policy} {hwin : 1 ≤ policy.window} {held : ℕ → List Triple} {s : Sim}
  {i j : ℕ} {w : World Triple} {peers : List PeerId} {own : List Triple} {S : Setting Triple}

/-! ## Responses -/

/-- A response goes to a node. -/
theorem Proper.lt {ev : Event Triple} (h : Proper s (.resp i ev)) : i < s.k := by
  cases ev with
  | peerGone p => exact h.elim
  | tick => exact h.elim
  | _ => exact h.1

/-- A response is a move of every world that mirrors the neighbourhood at its node. -/
theorem Inv.fits {ev : Event Triple} (h : Inv policy hwin held (s.post [.resp i ev]))
    (own : List Triple) (hw : Mirrors (s.post [.resp i ev]) i w)
    (hpeer : ∀ p, ev = .peerSeen p → p ∈ peers) :
    ∃ mv : Move Triple, mv.event = ev ∧ answers mv.event = mv.answered
      ∧ Fits (among policy hwin peers own) w mv := by
  have hmem : Msg.resp i ev ∈ (s.post [.resp i ev]).queue := by simp [post]
  have hproper := h.proper _ hmem
  obtain ⟨w₀, -, -, hw₀⟩ := h.sees i hproper.lt
  obtain ⟨mv, rfl, ha, hf⟩ := hproper.fits hwin held hw₀ hmem
  -- both worlds have the same pending and the same logs
  have hpend : ∀ {fx : Effect Triple}, (∀ p b upto, fx ≠ .settled p b upto) →
      fx ∈ w₀.pending → fx ∈ w.pending := fun hfx hp =>
    (hw.mem_pending hfx).mpr ((hw₀.mem_pending hfx).mp hp)
  refine ⟨mv, rfl, ha, ?_⟩
  cases mv with
  | peerSeen p => exact hpeer p rfl
  | peerGone p => exact hf.elim
  | tick => exact trivial
  | cursors p cs => exact ⟨hpend (by simp) hf.1, hf.2⟩
  | offer p b start refs topmost =>
    obtain ⟨hp, limit, hne, href, htop⟩ := hf
    rw [hw₀.logs, ← hw.logs] at hne href htop
    exact ⟨hpend (by simp) hp, limit, hne, href, htop⟩
  | fetch p b want outcomes => exact ⟨hpend (by simp) hf.1, hf.2⟩

/-- Told what it has asked for, a node moves as its world does. -/
theorem Watches.feed {mv : Move Triple} (h : Watches S (s.post [.resp i mv.event]) i w)
    (ha : answers mv.event = mv.answered) (hf : Fits S w mv) :
    Watches S (s.feed i mv.event) i { w with shell := w.shell.next mv } where
  sound := h.sound.move mv hf rfl rfl (.inl rfl)
  met := h.met.move h.sound hf rfl
  mirrors := h.mirrors.feed ha

/-- Whoever comes to hold something for a node logs it. -/
theorem held_move {w' : World Triple} (hs : Sound S w) {mv : Move Triple} (hf : Fits S w mv)
    (hw : w'.shell = w.shell.next mv) {c : Triple} {p : PeerId} (h : w'.node.m.Held c p) :
    w.node.m.Held c p ∨ ∃ k ∈ S.keys, k.peer = p ∧ ∃ b, (b, c) ∈ (w.logs k).entries := by
  rw [World.node_move hw] at h
  by_cases hr : endsInRound mv.event
  · rw [w.node.handle_eq_round hr, held_round] at h
    replace h := h.2
    cases mv with
    | peerGone q => exact hf.elim
    | offer q b start refs topmost =>
      obtain ⟨hp, limit, -, rfl, -⟩ := hf
      rw [Move.event, ingested, held_answerOffer] at h
      rcases h with ⟨hc, hq⟩ | ⟨-, h⟩
      · obtain ⟨e, he, rfl⟩ := List.mem_map.mp hc
        have hk := hs.found.mem_logs hs.account (k := ⟨q, b⟩) hp
        exact .inr ⟨⟨q, b⟩, (hs.found.keys _ hk).1, hq, e.1, (AppendLog.mem_of_mem_page he).1⟩
      · exact .inl h
    | fetch q b want outcomes =>
      have hheld : (w.node.reported q outcomes).m.Held = w.node.m.Held :=
        foldl_frame Held (report q) outcomes (by simp) w.node.m
      rw [Move.event, ingested, hheld] at h
      exact .inl h
    | _ => cases hr
  · rw [(w.node.quiet_handle hr).m] at h
    exact .inl h

/-- What another node is told leaves a world as it is. -/
theorem Watches.feed_ne {ev : Event Triple} (h : Watches S (s.post [.resp i ev]) j w)
    (hij : i ≠ j) : Watches S (s.feed i ev) j w where
  sound := h.sound
  met := h.met
  mirrors := by
    have hw : Mirrors s j w := h.mirrors.congr rfl (fun _ => rfl) fun fx _ => by
      rw [outstanding_post]
      simp [Msg.carries, hij]
    exact hw.feed_ne hij ev

/-! ## Storing -/

theorem Watches.store (h : Watches S s j w) (hi : i < 256) (c : Triple) :
    ∃ w', Watches S (s.store i c) j w' := by
  by_cases hnew : c ∈ (s.nodes i).index
  · exact ⟨w, by rwa [store_known hnew]⟩
  · have hlog : w.logs ⟨peerId i, binOf c⟩ = (s.nodes i).log (binOf c) := by
      rw [h.mirrors.logs]
      dsimp only
      rw [toNat_peerId hi]
    have hb : (w.logs ⟨peerId i, binOf c⟩).head < (s.nodes i).head (binOf c) + 1 := by
      rw [hlog]
      exact Nat.lt_succ_self _
    exact ⟨_, h.sound.append hb w.appends, h.met, h.mirrors.store hi hnew hb⟩

theorem Watches.stores (h : Watches S s j w) (hi : i < 256) (cs : List Triple) :
    ∃ w', Watches S (cs.foldl (fun s c => s.store i c) s) j w' := by
  induction cs generalizing s w with
  | nil => exact ⟨w, h⟩
  | cons c cs ih =>
    obtain ⟨w', hw'⟩ := h.store hi c
    exact ih hw'

/-- What a node stores changes no puller. -/
theorem puller_stores (s : Sim) (i : ℕ) (cs : List Triple) (j : ℕ) :
    ((cs.foldl (fun s c => s.store i c) s).nodes j).puller = (s.nodes j).puller := by
  induction cs generalizing s with
  | nil => rfl
  | cons c cs ih => rw [List.foldl_cons, ih, (store_frame s i c).2.1]

/-! ## Requests -/

/-- A request leaves the same outstanding: it is answered or parked. -/
theorem outstanding_request (s : Sim) (draws : List Bool) (i j : ℕ) (eff : Effect Triple)
    {fx : Effect Triple} (hfx : ∀ p b upto, fx ≠ .settled p b upto) :
    (s.deliver draws (.req i eff)).outstanding j fx
      = (s.post [.req i eff]).outstanding j fx := by
  -- the answer carries what the request did
  have hswap : ∀ ev, answers ev = some eff →
      (s.post [.resp i ev]).outstanding j fx = (s.post [.req i eff]).outstanding j fx :=
    fun ev ha => by
      rw [outstanding_post, outstanding_post]
      simp [Msg.carries, ha]
  cases eff with
  | getCursors p => exact hswap _ rfl
  | offer p bin start =>
    rw [deliver]
    dsimp only
    split
    · exact hswap _ (by rw [offerResponse, answers, peerId_toNat])
    · rw [outstanding_park, outstanding_post]
      simp [Msg.carries]
  | fetch p bin want =>
    rw [← hswap (.fetchResult p bin (serve (s.nodes p.toNat) want draws
      s.spuriousBudget).outcomes) (by rw [answers, (serve_spec _ want draws _).1])]
    exact outstanding_congr rfl (fun _ => rfl) j fx
  | settled p bin upto =>
    rw [outstanding_post, deliver]
    simp [Msg.carries, Ne.symm (hfx p bin upto)]

/-- A request changes no log and nobody's honesty. -/
theorem request_logs (s : Sim) (draws : List Bool) (i : ℕ) (eff : Effect Triple) (j : ℕ) :
    ((s.deliver draws (.req i eff)).nodes j).log = (s.nodes j).log
      ∧ ((s.deliver draws (.req i eff)).nodes j).byzantine = (s.nodes j).byzantine := by
  cases eff with
  | offer p bin start =>
    rw [deliver]
    dsimp only
    split
    · exact ⟨rfl, rfl⟩
    · rw [nodes_setNode]
      split
      · next hj => rw [hj]; exact ⟨rfl, rfl⟩
      · exact ⟨rfl, rfl⟩
  | _ => exact ⟨rfl, rfl⟩

/-- A request leaves every world as it is. -/
theorem Watches.request {eff : Effect Triple} (h : Watches S (s.post [.req i eff]) j w)
    (draws : List Bool) : Watches S (s.deliver draws (.req i eff)) j w where
  sound := h.sound
  met := h.met
  mirrors := h.mirrors.congr (((request_frame s draws i eff).2 j).1)
    (fun j => (request_logs s draws i eff j).1)
    fun _ hfx => outstanding_request s draws i j eff hfx

/-! ## Messages -/

/-- What a response makes a node send: requests, and answers to the offers parked at it. -/
def Sent : Msg → Prop
  | .req _ _ => True
  | .resp _ (.offerResult _ _ _ _ _) => True
  | .resp _ _ => False

/-- What a node stores is only answered to. -/
theorem queue_stores (s : Sim) (i : ℕ) (cs : List Triple) : ∃ news,
    (cs.foldl (fun s c => s.store i c) s).queue = s.queue ++ news ∧ ∀ m ∈ news, Sent m := by
  induction cs generalizing s with
  | nil => exact ⟨[], (List.append_nil _).symm, by simp⟩
  | cons c cs ih =>
    obtain ⟨news, hq, hnews⟩ := ih (s.store i c)
    rw [List.foldl_cons]
    by_cases hc : c ∈ (s.nodes i).index
    · rw [store_known hc] at hq ⊢
      exact ⟨news, hq, hnews⟩
    · rw [store_new hc] at hq ⊢
      refine ⟨_, hq.trans (List.append_assoc _ _ _), fun m hm => ?_⟩
      rcases List.mem_append.mp hm with hm | hm
      · obtain ⟨e, -, rfl⟩ := List.mem_map.mp hm
        exact trivial
      · exact hnews m hm

/-- A response leaves the messages in flight, and adds what its node sends. -/
theorem queue_response (s : Sim) (draws : List Bool) (i : ℕ) (ev : Event Triple) : ∃ news,
    (s.deliver draws (.resp i ev)).queue = s.queue ++ news ∧ ∀ m ∈ news, Sent m := by
  obtain ⟨news, hq, hnews⟩ := queue_stores (s.feed i ev) i (delivered ev)
  refine ⟨_, hq.trans (List.append_assoc _ _ _), fun m hm => ?_⟩
  rcases List.mem_append.mp hm with hm | hm
  · obtain ⟨fx, -, rfl⟩ := List.mem_map.mp hm
    exact trivial
  · exact hnews m hm

/-- Whatever is delivered, a world follows. -/
theorem Watches.deliver {m : Msg} (h : Watches (among policy hwin peers own) (s.post [m]) j w)
    (hinv : Inv policy hwin held (s.post [m]))
    (hpeer : ∀ p, m = .resp j (.peerSeen p) → p ∈ peers) (draws : List Bool) :
    ∃ w', Watches (among policy hwin peers own) (s.deliver draws m) j w' := by
  cases m with
  | req i eff => exact ⟨w, h.request draws⟩
  | resp i ev =>
    have hi : i < s.k := (hinv.proper (.resp i ev) (by simp [post])).lt
    have hi' : i < 256 := Nat.lt_of_lt_of_le hi hinv.few
    by_cases hij : i = j
    · subst hij
      obtain ⟨mv, rfl, ha, hf⟩ := hinv.fits own h.mirrors fun p hp => hpeer p (by rw [hp])
      exact (h.feed ha hf).stores hi' _
    · exact (h.feed_ne hij).stores hi' _

/-- The order of the messages plays no part. -/
theorem Watches.take (h : Watches S s j w) {idx : ℕ} {m : Msg} (hm : s.queue[idx]? = some m) :
    Watches S (({ s with queue := swapRemove s.queue idx } : Sim).post [m]) j w where
  sound := h.sound
  met := h.met
  mirrors := h.mirrors.congr rfl (fun _ => rfl) fun fx _ => by
    have hperm : (swapRemove s.queue idx ++ [m]).Perm s.queue :=
      (List.perm_append_singleton m _).trans (swapRemove_perm hm)
    have hparked : ∀ queue, parkedFor { s with queue := queue } j fx = s.parkedFor j fx :=
      fun queue => by cases fx <;> rfl
    rw [outstanding, outstanding, ← hparked (swapRemove s.queue idx ++ [m])]
    exact congrArg (· + _) (hperm.countP_eq _)

theorem Watches.step (h : Watches (among policy hwin peers own) s j w)
    (hinv : Inv policy hwin held s) (hpeer : ∀ p, .resp j (.peerSeen p) ∉ s.queue) (idx : ℕ)
    (draws : List Bool) : ∃ w', Watches (among policy hwin peers own) (s.step idx draws) j w' := by
  rw [Sim.step]
  split
  · exact ⟨w, h⟩
  · next m hm =>
    refine (h.take hm).deliver (s := { s with queue := swapRemove s.queue idx }) (hinv.take hm)
      (fun p hp => ?_) draws
    exact absurd (hp ▸ List.mem_of_getElem? hm) (hpeer p)

end

end Melissi.Sim
