import Melissi.Puller.Tracks
import Melissi.Puller.World

/-!
# The account of what is pending

What the node believes to be in flight is exactly what the shell has not answered: the leases are
the wants of the pending fetches, and a key is open for as long as one offer to it is pending.
-/

namespace Melissi.Puller

open Melissi.Common Melissi.Machine Melissi.Machine.PullState Melissi.Settlement Melissi.Node
open Std (ExtTreeMap ExtTreeSet)

variable {C : Type} [LinearOrder C]

/-! ## The outcomes of a fetch -/

/-- A triple with an outcome is not leased to that peer any more. -/
theorem not_leased_reported {n : Node C} {peer : PeerId} {outcomes : List (C × Outcome)}
    (hd : n.m.cfg.dedup) (hf : n.m.cfg.failover) (hs : Safe n.m) {e : C × Outcome}
    (he : e ∈ outcomes) : ¬ (n.reported peer outcomes).m.Leased e.1 peer := by
  intro hl
  have hcalls : ∀ os : List (C × Outcome), ∀ m : PullState C, Calls m (os.foldl (report peer) m) :=
    fun os => Calls.foldl _ os (calls_report peer)
  obtain ⟨pre, post, rfl⟩ := List.append_of_mem he
  have hsafe := (hcalls (pre ++ e :: post) n.m).safe hd hs
  rw [reported] at hl
  dsimp only at hl
  have harr := hsafe.claims.arrived _ _ hl
  have hunst := hsafe.claims.unstored _ _ hl
  have hunrej := hsafe.claims.unrejected _ harr
  rw [List.foldl_append, List.foldl_cons] at hl hunst hunrej
  have hcfg := (hcalls pre n.m).cfg_eq
  have hl := leased_of_reported hl
  have hmono := (hcalls post (report peer (pre.foldl (report peer) n.m) e)).settled_mono
  obtain ⟨c, o⟩ := e
  cases o with
  | delivered => exact ((leased_deliver _ c c peer peer).mp hl).1 ⟨rfl, rfl⟩
  | missed => exact ((leased_stall _ c c peer peer).mp hl).1 ⟨by rw [hcfg]; exact hf, rfl, rfl⟩
  | rejected =>
    have hset := ((leased_reject _ c c peer).mp hl).1
    simp only [true_and, not_and, not_not] at hset
    by_cases hg : c ∈ (pre.foldl (report peer) n.m).got
    · exact hunst (hmono.1 c (by simpa [report] using hg))
    · exact hunrej (hmono.2 c (by simpa [report] using Or.inr (hset hg)))

/-- What the outcomes store and reject is what they say. -/
theorem mem_got_reported {n : Node C} {peer : PeerId} {outcomes : List (C × Outcome)} {c : C}
    (h : c ∈ (n.reported peer outcomes).m.got) : c ∈ n.m.got ∨ (c, .delivered) ∈ outcomes := by
  refine foldl_invariant (I := fun m => ∀ c ∈ m.got, c ∈ n.m.got ∨ (c, .delivered) ∈ outcomes)
    (report peer) outcomes (fun m hm e he d hd => ?_) (fun _ h => .inl h) c h
  obtain ⟨d', o⟩ := e
  cases o with
  | delivered =>
    rcases (m.mem_got_deliver d' d peer).mp hd with ⟨rfl, -⟩ | hd
    · exact .inr he
    · exact hm d hd
  | rejected => exact hm d (by simpa [report] using hd)
  | missed => exact hm d (by simpa [report] using hd)

theorem mem_rejected_reported {n : Node C} {peer : PeerId} {outcomes : List (C × Outcome)} {c : C}
    (h : c ∈ (n.reported peer outcomes).m.rejected) :
    c ∈ n.m.rejected ∨ (c, .rejected) ∈ outcomes := by
  refine foldl_invariant
    (I := fun m => ∀ c ∈ m.rejected, c ∈ n.m.rejected ∨ (c, .rejected) ∈ outcomes)
    (report peer) outcomes (fun m hm e he d hd => ?_) (fun _ h => .inl h) c h
  obtain ⟨d', o⟩ := e
  cases o with
  | delivered => exact hm d (by simpa [report] using hd)
  | rejected =>
    rcases (m.mem_rejected_reject d' d).mp hd with ⟨rfl, -⟩ | hd
    · exact .inr he
    · exact hm d hd
  | missed => exact hm d (by simpa [report] using hd)

/-- Where every outcome has its lease, each delivery counts and is stored, and nothing else is. -/
theorem deliveries_reported {n : Node C} {peer : PeerId} {outcomes : List (C × Outcome)}
    (hnd : (outcomes.map (·.1)).Nodup) (hl : ∀ e ∈ outcomes, n.m.Leased e.1 peer) :
    (n.reported peer outcomes).m.ndeliv
        = n.m.ndeliv + outcomes.countP (fun e => e.2 = .delivered)
      ∧ ∀ c, c ∈ (n.reported peer outcomes).m.got ↔ c ∈ n.m.got ∨ (c, .delivered) ∈ outcomes := by
  refine ⟨?_, fun c => ⟨mem_got_reported, ?_⟩⟩
  · induction outcomes generalizing n with
    | nil => rfl
    | cons e outcomes ih =>
      rw [List.map_cons, List.nodup_cons] at hnd
      have hrest := ih (n := n.reported peer [e]) hnd.2 fun d hd => by
        refine (leased_reported fun e' he' => .inl ?_).mpr (hl d (List.mem_cons_of_mem _ hd))
        rw [List.mem_singleton.mp he']
        exact fun h => hnd.1 (h ▸ List.mem_map.mpr ⟨d, hd, rfl⟩)
      have hone : (report peer n.m e).ndeliv
          = n.m.ndeliv + [e].countP (fun e => e.2 = .delivered) := by
        have hle := hl e List.mem_cons_self
        obtain ⟨c, o⟩ := e
        cases o with
        | delivered =>
          have hc : setContains n.m.want c peer = true := hle
          simp [report, PullState.deliver, hc]
        | rejected => simp [report]
        | missed => simp [report]
      have hsplit : outcomes.countP (fun e => e.2 = .delivered)
          + [e].countP (fun e => e.2 = .delivered)
          = (e :: outcomes).countP (fun e => e.2 = .delivered) := by
        rw [Nat.add_comm, ← List.countP_append, List.singleton_append]
      change (outcomes.foldl (report peer) (report peer n.m e)).ndeliv = _
      change (outcomes.foldl (report peer) (report peer n.m e)).ndeliv
        = (report peer n.m e).ndeliv + _ at hrest
      omega
  · rintro (hc | hc)
    · exact (Calls.foldl _ outcomes (calls_report peer) n.m).settled_mono.1 c hc
    · exact (settled_reported hnd hc (hl _ hc)).1 rfl

/-! ## What a run of the setting feeds -/

/-- The moves of the shell in a world. The heads a peer names play no part, only its bins do. -/
def Fits (S : Setting C) (w : World C) : Move C → Prop
  | .peerSeen p => p ∈ S.peers
  | .peerGone _ => False
  | .tick => True
  | .cursors p cs => .getCursors p ∈ w.pending ∧ cs.map (·.1) = S.bins p
  | .offer p b start refs topmost => .offer p b start ∈ w.pending ∧
      ∃ limit, (w.logs ⟨p, b⟩).page start limit ≠ [] ∧ refs = (w.logs ⟨p, b⟩).page start limit
        ∧ topmost = AppendLog.topmost ((w.logs ⟨p, b⟩).page start limit)
  | .fetch p b want outcomes => .fetch p b want ∈ w.pending ∧ (outcomes.map (·.1)).Perm want
      ∧ ∀ e ∈ outcomes, e.2 = .rejected ↔ S.bad e.1

/-- What answers a move is pending. -/
theorem Fits.answered {S : Setting C} {w : World C} {mv : Move C} (h : Fits S w mv) :
    ∀ fx ∈ mv.answered, fx ∈ w.pending := by
  rintro fx hfx
  cases mv <;> simp only [Move.answered, Option.mem_def, Option.some.injEq, reduceCtorEq] at hfx
  · subst hfx
    exact h.1
  · subst hfx
    exact h.1
  · subst hfx
    exact h.1

theorem Fits.admits {S : Setting C} {w : World C} {mv : Move C} (h : Fits S w mv) :
    w.shell.Admits mv := by
  refine ⟨h.answered, fun e he => ?_⟩
  cases mv with
  | fetch p b want outcomes => exact h.2.1.subset (List.mem_map.mpr ⟨e, he, rfl⟩)
  | _ => cases he

/-- The leases and the open keys are what is pending. -/
structure Account (w : World C) : Prop where
  accounted : w.shell.Accounted
  cfg : w.node.m.cfg = Config.production
  /-- Every lease is wanted by a pending fetch. -/
  wanted : ∀ c p, w.node.m.Leased c p → ∃ b want, .fetch p b want ∈ w.pending ∧ c ∈ want
  batches : ∀ p b want, .fetch p b want ∈ w.pending → want ≠ [] ∧ want.Nodup
  opens : ∀ k, offersTo k w.pending = (w.node.disc.offerOpen.contains k).toNat
  /-- An offer starts at or below where the next one would. -/
  starts : ∀ k : PeerBin, ∀ start, .offer k.peer k.bin start ∈ w.pending →
    0 < start ∧ start ≤ (w.node.log k).next

theorem Account.safe {w : World C} (h : Account w) : Safe w.node.m :=
  h.accounted.safe (by rw [show w.shell.node.m.cfg = Config.production from h.cfg]; rfl)

theorem Account.careful {S : Setting C} {w : World C} (h : Account w)
    (ht : ∀ k, Tracks (w.logs k) (w.node.log k) (Settled w.node)) {mv : Move C} (hf : Fits S w mv) :
    w.shell.Careful mv := by
  cases mv with
  | peerGone p => exact hf.elim
  | offer p b start refs topmost =>
    obtain ⟨-, limit, hne, rfl, rfl⟩ := hf
    intro e he
    rw [show w.shell.node.log ⟨p, b⟩ = w.node.log ⟨p, b⟩ from rfl, (ht ⟨p, b⟩).lost_page hne] at he
    cases he
  | fetch p b want outcomes =>
    refine ⟨hf.2.1.nodup_iff.mpr (h.batches p b want hf.1).2, .inl ?_⟩
    rw [show w.shell.node.m.cfg = Config.production from h.cfg]
    rfl
  | peerSeen p => trivial
  | tick => trivial
  | cursors p cs => trivial

/-- Counting what stays pending: all but what is answered. -/
theorem countP_rest {s : Shell C} {mv : Move C} (h : ∀ fx ∈ mv.answered, fx ∈ s.pending)
    (q : Effect C → Bool) :
    (s.rest mv).countP q + mv.answered.toList.countP q = s.pending.countP q := by
  rw [Shell.rest]
  cases ha : mv.answered with
  | none => simp
  | some fx =>
    have hperm : s.pending.countP q = (fx :: s.pending.erase fx).countP q :=
      (List.perm_cons_erase (h fx ha)).countP_eq _
    rw [hperm, ← List.singleton_append, List.countP_append, Nat.add_comm]
    rfl

/-- The open keys after a move: what it answers is closed, and what it emits is opened. -/
theorem opens_move (n : Node C) {mv : Move C} (hgone : ∀ p, mv ≠ .peerGone p) (k : PeerBin)
    (hopen : offersTo k mv.answered.toList ≤ (n.disc.offerOpen.contains k).toNat) :
    offersTo k (n.handle mv.event).2 + (n.disc.offerOpen.contains k).toNat
      = ((n.handle mv.event).1.disc.offerOpen.contains k).toNat
        + offersTo k mv.answered.toList := by
  have h := n.opens_handle mv.event k
  -- a move closes the key whose offer it answers
  have hcloses : (decide (Closes k mv.event)).toNat = offersTo k mv.answered.toList := by
    cases mv with
    | peerGone p => exact absurd rfl (hgone p)
    | offer p b start refs topmost =>
      by_cases hkk : p = k.peer ∧ b = k.bin <;>
        simp [Move.event, Move.answered, Closes, offersTo, hkk]
    | _ => exact congrArg Bool.toNat (decide_eq_false id)
  rw [← hcloses] at hopen ⊢
  generalize n.disc.offerOpen.contains k = o at h hopen ⊢
  generalize decide (Closes k mv.event) = x at h hopen ⊢
  cases o <;> cases x <;> simp at h hopen ⊢ <;> omega

/-- Every lease left by what a move ingests was there before, and is not one of those it answers. -/
theorem Account.leased_of_ingested {S : Setting C} {w : World C} (h : Account w) {mv : Move C}
    (hf : Fits S w mv) {c : C} {p : PeerId} (hl : (w.node.ingested mv.event).m.Leased c p) :
    ∃ b want, .fetch p b want ∈ w.shell.rest mv ∧ c ∈ want := by
  have hold : w.node.m.Leased c p := by
    cases mv with
    | peerGone q => exact hf.elim
    | offer q b start refs topmost =>
      exact ((w.node.leased_answerOffer _ start refs topmost c p).mp hl).2
    | fetch q b want outcomes => exact leased_of_reported hl
    | peerSeen q => exact hl
    | tick => exact hl
    | cursors q cs => exact hl
  obtain ⟨b, want, hp, hc⟩ := h.wanted c p hold
  refine ⟨b, want, ?_, hc⟩
  rw [Shell.rest]
  cases ha : mv.answered with
  | none => exact hp
  | some fx =>
    refine (List.mem_erase_of_ne fun heq => ?_).mpr hp
    -- the answered fetch has an outcome for every want
    subst heq
    cases mv with
    | fetch q b' want' outcomes =>
      simp only [Move.answered, Option.some.injEq, Effect.fetch.injEq] at ha
      obtain ⟨rfl, rfl, rfl⟩ := ha
      obtain ⟨e, he, rfl⟩ := List.mem_map.mp (hf.2.1.symm.subset hc)
      exact not_leased_reported (by rw [h.cfg]; rfl) (by rw [h.cfg]; rfl) h.safe he hl
    | _ => simp [Move.answered] at ha

/-- Every move of the setting keeps the account. -/
theorem Account.move {S : Setting C} {w w' : World C} (h : Account w)
    (ht : ∀ k, Tracks (w.logs k) (w.node.log k) (Settled w.node)) {mv : Move C} (hf : Fits S w mv)
    (hw : w'.shell = w.shell.next mv) : Account w' := by
  have hgone : ∀ p, mv ≠ .peerGone p := by
    rintro p rfl
    exact hf
  have hnode : w'.node = (w.node.handle mv.event).1 := World.node_move hw
  have hpend : w'.pending = w.shell.rest mv ++ (w.node.handle mv.event).2 :=
    World.pending_move hw
  refine ⟨?_, ?_, fun c p hl => ?_, fun p b want hm => ?_, fun k => ?_, fun k start hm => ?_⟩
  · rw [hw]
    exact h.accounted.next hf.admits (h.careful ht hf)
  · rw [hnode, (w.node.calls_handle mv.event).cfg_eq]
    exact h.cfg
  · rw [hnode, leased_handle] at hl
    rw [hpend]
    rcases hl with hl | ⟨b, want, hm, hc⟩
    · obtain ⟨b, want, hm, hc⟩ := h.leased_of_ingested hf hl
      exact ⟨b, want, List.mem_append_left _ hm, hc⟩
    · exact ⟨b, want, List.mem_append_right _ hm, hc⟩
  · rw [hpend, List.mem_append] at hm
    rcases hm with hm | hm
    · exact h.batches p b want (Shell.mem_pending_of_rest hm)
    · obtain ⟨-, hne, rfl⟩ := (fetch_mem_handle _ _ p b want).mp hm
      exact ⟨hne, (scheduled_spec _).1.nodup _⟩
  · have hrest : offersTo k (w.shell.rest mv) + offersTo k mv.answered.toList
        = offersTo k w.shell.pending := countP_rest hf.answered _
    have hopens := h.opens k
    change offersTo k w.shell.pending = _ at hopens
    have hmove := opens_move w.node hgone k (by omega)
    rw [hpend, hnode, offersTo_append]
    omega
  · have hev : mv.event ≠ .peerGone k.peer := by
      cases mv with
      | peerGone p => exact absurd rfl (hgone p)
      | _ => simp [Move.event]
    rw [hpend, List.mem_append] at hm
    rw [hnode]
    rcases hm with hm | hm
    · have hle := interval_handle (n := w.node) hev
      have hs := h.starts k start (Shell.mem_pending_of_rest hm)
      rw [PeerBinLog.next] at hs ⊢
      omega
    · rw [offer_mem_handle hm, PeerBinLog.next]
      exact ⟨Nat.succ_pos _, le_refl _⟩

end Melissi.Puller
