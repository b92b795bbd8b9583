import Melissi.Node.Shell

/-!
# Deliveries and their leases

A delivery is accepted only under its lease. The leases are accounted for by the pending fetches:
each fetch leases what it wants, and only its own answer gives that up, unless an offer stops naming
a triple while its fetch is under way.
-/

namespace Melissi.Node

open Melissi.Common Melissi.Machine Melissi.Machine.PullState Melissi.Settlement
open Std (ExtTreeMap ExtTreeSet)

variable {C : Type} [LinearOrder C]

/-! ## Leases over the outcomes of a fetch -/

/-- An outcome touches the leases of its own triple at its own peer, and all of a rejected one. -/
theorem leased_report {peer : PeerId} {m : PullState C} {e : C × Outcome} {d : C} {q : PeerId}
    (h : e.1 ≠ d ∨ q ≠ peer ∧ e.2 ≠ .rejected) :
    (report peer m e).Leased d q ↔ m.Leased d q := by
  obtain ⟨c, o⟩ := e
  cases o with
  | delivered =>
    rw [report, leased_deliver, and_iff_right]
    rintro ⟨rfl, rfl⟩
    simp at h
  | rejected =>
    rw [report, leased_reject, and_iff_right]
    rintro ⟨rfl, -⟩
    simp at h
  | missed =>
    rw [report, leased_stall, and_iff_right]
    rintro ⟨-, rfl, rfl⟩
    simp at h

theorem leased_reported {n : Node C} {peer : PeerId} {outcomes : List (C × Outcome)} {d : C}
    {q : PeerId} (h : ∀ e ∈ outcomes, e.1 ≠ d ∨ q ≠ peer ∧ e.2 ≠ .rejected) :
    (n.reported peer outcomes).m.Leased d q ↔ n.m.Leased d q := by
  have hfold := foldl_frame (fun m : PullState C => m.Leased d q) (report peer) outcomes
    (fun m e he => propext (leased_report (h e he))) n.m
  exact iff_of_eq hfold

theorem leased_of_report {peer : PeerId} {m : PullState C} {e : C × Outcome} {d : C} {q : PeerId}
    (h : (report peer m e).Leased d q) : m.Leased d q := by
  obtain ⟨c, o⟩ := e
  cases o with
  | delivered => exact ((m.leased_deliver c d peer q).mp h).2
  | rejected => exact ((m.leased_reject c d q).mp h).2
  | missed => exact ((m.leased_stall c d peer q).mp h).2

/-- Outcomes lease nothing. -/
theorem leased_of_reported {outcomes : List (C × Outcome)} {peer : PeerId} {m : PullState C} {d : C}
    {q : PeerId} (h : (outcomes.foldl (report peer) m).Leased d q) : m.Leased d q := by
  induction outcomes generalizing m with
  | nil => exact h
  | cons e outcomes ih => exact leased_of_report (ih h)

/-- An outcome ends the lease it is of. -/
theorem unleased_report {peer : PeerId} {m : PullState C} (hs : Safe m) (hf : m.cfg.failover)
    (e : C × Outcome) : ¬ (report peer m e).Leased e.1 peer := by
  obtain ⟨c, o⟩ := e
  cases o with
  | delivered => simp [report]
  | rejected =>
    intro h
    obtain ⟨hfree, hl⟩ := (m.leased_reject c c peer).mp h
    exact hfree ⟨rfl, hs.claims.unstored c peer hl,
      hs.claims.unrejected c (hs.claims.arrived c peer hl)⟩
  | missed => simp [report, hf]

/-- The outcomes of a fetch end every lease they name. -/
theorem unleased_reported {peer : PeerId} {outcomes : List (C × Outcome)} {m : PullState C}
    (hd : m.cfg.dedup) (hf : m.cfg.failover) (hs : Safe m) {c : C} (hc : c ∈ outcomes.map Prod.fst) :
    ¬ (outcomes.foldl (report peer) m).Leased c peer := by
  induction outcomes generalizing m with
  | nil => cases hc
  | cons e outcomes ih =>
    rw [List.map_cons, List.mem_cons] at hc
    rw [List.foldl_cons]
    rcases hc with rfl | hc
    · exact fun h => unleased_report hs hf e (leased_of_reported h)
    · have hcfg := (report_frame peer m e).1
      exact ih (by rwa [hcfg]) (by rwa [hcfg]) ((calls_report peer m e).safe hd hs) hc

/-- Where each triple has one outcome, a lease stands until its own. -/
theorem leased_until {n : Node C} {peer : PeerId} {pre post : List (C × Outcome)} {e : C × Outcome}
    (hnd : ((pre ++ e :: post).map (·.1)).Nodup) :
    (pre.foldl (report peer) n.m).Leased e.1 peer ↔ n.m.Leased e.1 peer := by
  rw [List.map_append, List.map_cons, List.nodup_append] at hnd
  exact leased_reported (n := n) fun d hd =>
    .inl (hnd.2.2 d.1 (List.mem_map.mpr ⟨d, hd, rfl⟩) e.1 (by simp))

/-- A leased triple that is delivered or rejected is settled, and stored if it is delivered. -/
theorem settled_reported {n : Node C} {peer : PeerId} {outcomes : List (C × Outcome)}
    (hnd : (outcomes.map (·.1)).Nodup) {e : C × Outcome} (he : e ∈ outcomes)
    (hl : n.m.Leased e.1 peer) :
    (e.2 = .delivered → e.1 ∈ (n.reported peer outcomes).m.got)
      ∧ (e.2 ≠ .missed → Settled (n.reported peer outcomes) e.1) := by
  obtain ⟨pre, post, rfl⟩ := List.append_of_mem he
  have hl := (leased_until hnd).mpr hl
  have hmono := (Calls.foldl (report peer) post (calls_report peer)
    (report peer (pre.foldl (report peer) n.m) e)).settled_mono
  rw [Settled, reported, List.foldl_append, List.foldl_cons]
  obtain ⟨c, o⟩ := e
  have hdeliv : o = .delivered → c ∈ (report peer (pre.foldl (report peer) n.m) (c, o)).got := by
    rintro rfl
    exact (mem_got_deliver _ c c peer).mpr (.inl ⟨rfl, hl⟩)
  refine ⟨fun ho => hmono.1 c (hdeliv ho), fun ho => ?_⟩
  cases o with
  | delivered => exact .inl (hmono.1 c (hdeliv rfl))
  | missed => exact absurd rfl ho
  | rejected =>
    by_cases hg : c ∈ (pre.foldl (report peer) n.m).got
    · exact .inl (hmono.1 c (by simpa [report] using hg))
    · exact .inr (hmono.2 c ((mem_rejected_reject _ c c).mpr (.inl ⟨rfl, hg⟩)))

/-! ## The account -/

namespace Shell

/-- Every pending fetch is leased, and no two want one triple of one peer. -/
structure Accounted (s : Shell C) : Prop where
  leased : ∀ p b want, .fetch p b want ∈ s.pending → ∀ c ∈ want, s.node.m.Leased c p
  apart : s.pending.Pairwise Apart
  safe : s.node.m.cfg.dedup → Safe s.node.m

/-- No peer departs; an offer drops no triple while a fetch of it from that peer is pending; a fetch
is answered at most once a triple; and where an id may have two claims, no rejection is of a triple
that another pending fetch wants. -/
def Careful (s : Shell C) : Move C → Prop
  | .peerGone _ => False
  | .offer peer bin start refs topmost =>
    ∀ e ∈ lost (s.node.log ⟨peer, bin⟩) start refs topmost,
      ∀ b want, .fetch peer b want ∈ s.pending → e.2 ∉ want
  | .fetch peer bin want outcomes =>
    (outcomes.map (·.1)).Nodup ∧ (s.node.m.cfg.dedup ∨ ∀ e ∈ outcomes, e.2 = .rejected →
      ∀ q b w, .fetch q b w ∈ s.pending.erase (.fetch peer bin want) → e.1 ∉ w)
  | _ => True

/-- Every move is careful where it is made. -/
def CarefulRun : Shell C → List (Move C) → Prop
  | _, [] => True
  | s, mv :: mvs => s.Careful mv ∧ (s.next mv).CarefulRun mvs

theorem careful_append (s : Shell C) (mvs mvs' : List (Move C)) :
    s.CarefulRun (mvs ++ mvs') ↔ s.CarefulRun mvs ∧ (s.play mvs).CarefulRun mvs' := by
  induction mvs generalizing s with
  | nil => simp [CarefulRun]
  | cons mv mvs ih => rw [List.cons_append, CarefulRun, CarefulRun, ih, play_cons, and_assoc]

theorem mem_pending_of_rest {s : Shell C} {mv : Move C} {fx : Effect C} (h : fx ∈ s.rest mv) :
    fx ∈ s.pending := by
  rw [rest] at h
  cases ha : mv.answered with
  | none => simpa [ha] using h
  | some g =>
    rw [ha] at h
    exact List.mem_of_mem_erase h

/-- What stays pending is apart from what was answered. -/
theorem Accounted.apart_rest {s : Shell C} (h : Accounted s) {f g : Effect C} (hf : f ∈ s.pending)
    (hg : g ∈ s.pending.erase f) : Apart f g := by
  have hsymm : ∀ {f g : Effect C}, Apart f g → Apart g f := fun h p b want b' want' hf hg c hc hc' =>
    h p b' want' b want hg hf c hc' hc
  have hperm := (List.perm_cons_erase hf).pairwise_iff hsymm |>.mp h.apart
  exact (List.pairwise_cons.mp hperm).1 g hg

/-- What a careful move leaves pending stays leased through its ingestion. -/
theorem Accounted.leased_rest {s : Shell C} (h : Accounted s) {mv : Move C} (had : s.Admits mv)
    (hc : s.Careful mv) {p : PeerId} {b : Bin} {want : List C} (hf : .fetch p b want ∈ s.rest mv) :
    ∀ c ∈ want, (s.node.ingested mv.event).m.Leased c p := by
  intro c hcw
  have hleased := h.leased p b want (mem_pending_of_rest hf) c hcw
  cases mv with
  | peerGone q => exact hc.elim
  | offer peer bin start refs topmost =>
    refine (s.node.leased_answerOffer _ start refs topmost c p).mpr ⟨?_, hleased⟩
    rintro ⟨hlost, rfl⟩
    obtain ⟨e, he, rfl⟩ := List.mem_map.mp hlost
    exact hc e he b want (mem_pending_of_rest hf) hcw
  | fetch peer bin want' outcomes =>
    have hmem : .fetch peer bin want' ∈ s.pending := had.1 _ rfl
    have hf : .fetch p b want ∈ s.pending.erase (.fetch peer bin want') := hf
    refine (leased_reported fun e he => ?_).mpr hleased
    have hwant : e.1 ∈ want' := had.2 e he
    by_cases hec : e.1 = c
    · refine .inr ⟨?_, fun hrej => ?_⟩
      · rintro rfl
        exact h.apart_rest hmem hf p bin want' b want rfl rfl c (hec ▸ hwant) hcw
      · rcases hc.2 with hd | hno
        · -- with one claim an id, the two fetches would be of one peer
          have hone := (h.safe hd).claims.unique hd c p peer hleased
            (h.leased peer bin want' hmem c (hec ▸ hwant))
          subst hone
          exact h.apart_rest hmem hf p bin want' b want rfl rfl c (hec ▸ hwant) hcw
        · exact hno e he hrej p b want hf (hec ▸ hcw)
    · exact .inl hec
  | peerSeen q => exact hleased
  | tick => exact hleased
  | cursors q cs => exact hleased

/-- A careful move keeps the account. -/
theorem Accounted.next {s : Shell C} (h : Accounted s) {mv : Move C} (had : s.Admits mv)
    (hc : s.Careful mv) : Accounted (s.next mv) := by
  have hrest : ∀ p b want, .fetch p b want ∈ s.rest mv → ∀ c ∈ want,
      (s.node.ingested mv.event).m.Leased c p := fun p b want hf => h.leased_rest had hc hf
  refine ⟨fun p b want hf c hcw => ?_, ?_, fun hd => ?_⟩
  · refine (leased_handle _ _ c p).mpr ?_
    rcases List.mem_append.mp hf with hf | hf
    · exact .inl (hrest p b want hf c hcw)
    · exact .inr ⟨b, want, hf, hcw⟩
  · refine List.pairwise_append.mpr ⟨?_, apart_handle _ _, ?_⟩
    · rw [rest]
      cases mv.answered with
      | none => exact h.apart
      | some g => exact h.apart.sublist List.erase_sublist
    · rintro f hf g hg p b want b' want' rfl rfl c hcw hcw'
      obtain ⟨-, -, hwant⟩ := (fetch_mem_handle _ _ p b' want').mp hg
      rw [hwant] at hcw'
      exact (mem_fetched hcw').2.1 (hrest p b want hf c hcw)
  · have hcfg := (s.node.calls_handle mv.event).cfg_eq
    have hd : s.node.m.cfg.dedup := by
      rw [← hcfg]
      exact hd
    exact s.node.safe_handle hd (h.safe hd) mv.event

theorem accounted_play {cfg : Config} {radius : Bin} {policy : Policy} {held : List C}
    {mvs : List (Move C)} (hp : (Shell.start (Node.start cfg radius policy held)).Plays mvs)
    (hc : (Shell.start (Node.start cfg radius policy held)).CarefulRun mvs) :
    Accounted ((Shell.start (Node.start cfg radius policy held)).play mvs) := by
  induction mvs using List.reverseRecOn with
  | nil =>
    exact ⟨by simp [Shell.start], by simp [Shell.start], fun hd => safe_start (by
      rwa [← (start_machine_frame cfg radius policy held).1]) radius policy held⟩
  | append_singleton mvs mv ih =>
    obtain ⟨hp, hmv⟩ := (plays_append _ _ _).mp hp
    obtain ⟨hc, hcmv⟩ := (careful_append _ _ _).mp hc
    rw [play_append]
    exact (ih hp hc).next hmv.1 hcmv.1

/-- A verified delivery is never refused, provided no offer drops a triple while its fetch is
pending and no triple has two outcomes in one answer: the lease is still held, the machine accepts
the delivery, and the triple is stored afterwards. -/
theorem delivery_accepted (cfg : Config) (radius : Bin) (policy : Policy) (held : List C)
    (mvs : List (Move C)) (peer : PeerId) (bin : Bin) (want : List C)
    (outcomes pre post : List (C × Outcome)) (c : C)
    (ho : outcomes = pre ++ (c, .delivered) :: post)
    (hp : (Shell.start (Node.start cfg radius policy held)).Plays
      (mvs ++ [.fetch peer bin want outcomes]))
    (hc : (Shell.start (Node.start cfg radius policy held)).CarefulRun
      (mvs ++ [.fetch peer bin want outcomes])) :
    let s := (Shell.start (Node.start cfg radius policy held)).play mvs
    let m := pre.foldl (report peer) s.node.m
    m.Leased c peer ∧ (m.deliver c peer).2 ∧ (s.next (.fetch peer bin want outcomes)).node.has c := by
  intro s m
  obtain ⟨hp, hmv, -⟩ := (plays_append _ _ _).mp hp
  obtain ⟨hc, hcmv, -⟩ := (careful_append _ _ _).mp hc
  have hacc := accounted_play hp hc
  have hin : (c, Outcome.delivered) ∈ outcomes := by simp [ho]
  have hheld := hacc.leased peer bin want (hmv.1 _ rfl) c (hmv.2 _ hin)
  have hleased : m.Leased c peer := (leased_until (n := s.node) (ho ▸ hcmv.1)).mpr hheld
  have hgot := (settled_reported (n := s.node) hcmv.1 hin hheld).1 rfl
  refine ⟨hleased, (m.deliver_snd c peer).mpr hleased, ?_⟩
  have hround := (s.node.reported peer outcomes).settled_round.1
  simp only [Node.has, PullState.has, Shell.next, Move.event, handle_fetchResult, hround]
  exact ExtTreeSet.mem_iff_contains.mp hgot

theorem delivery_accepted_first :
    let s := (Shell.start (Node.start Config.production 0 Policy.shipped ([] : List ℕ))).play
      [.peerSeen 1, .cursors 1 [(1, 5)], .offer 1 1 1 [(1, 7)] 1]
    s.node.m.Leased 7 1 ∧ (s.node.m.deliver 7 1).2
      ∧ (s.next (.fetch 1 1 [7] [(7, .delivered)])).node.has 7 := by
  refine delivery_accepted Config.production 0 Policy.shipped []
    [.peerSeen 1, .cursors 1 [(1, 5)], .offer 1 1 1 [(1, 7)] 1] 1 1 [7] _ [] [] 7 rfl
    (by decide +kernel) ⟨trivial, trivial, ?_, ⟨by simp, .inl (by decide +kernel)⟩, trivial⟩
  intro e he
  have hnone : lost ((((Shell.start (Node.start Config.production 0 Policy.shipped
      ([] : List ℕ))).next (.peerSeen 1)).next (.cursors 1 [(1, 5)])).node.log ⟨1, 1⟩) 1 [(1, 7)] 1
      = [] := by decide +kernel
  rw [hnone] at he
  cases he

/-- The tick's offer crosses the fetch: answered with nothing it drops the triple and its lease, and
the delivery that follows is refused. -/
theorem delivery_refused :
    let s₀ := Shell.start (Node.start Config.production 0 Policy.shipped ([] : List ℕ))
    let mvs : List (Move ℕ) := [.peerSeen 1, .cursors 1 [(1, 5)], .offer 1 1 1 [(1, 7)] 1, .tick,
      .offer 1 1 1 [] 1]
    let s := s₀.play mvs
    s₀.Plays (mvs ++ [.fetch 1 1 [7] [(7, .delivered)]]) ∧ ¬ s.node.m.Leased 7 1
      ∧ (s.node.m.deliver 7 1).2 = false
      ∧ (s.next (.fetch 1 1 [7] [(7, .delivered)])).node.has 7 = false := by
  decide +kernel

end Shell

end Melissi.Node
