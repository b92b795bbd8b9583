import Melissi.Node.Answer
import Melissi.Node.Round

/-!
# What each event does

The ingestion part of every event arm, described once, and the two facts that hold of all of them:
the machine only moves by its own calls, and the offers emitted for a key are those that open it.
-/

namespace Melissi.Node

open Melissi.Common Melissi.Machine Melissi.Machine.PullState Melissi.Settlement
open Std (ExtTreeMap ExtTreeSet)

variable {C : Type} [LinearOrder C]

/-! ## The start -/

/-- Preloading stores entries and touches nothing else. -/
theorem start_frame (cfg : Config) (radius : Bin) (policy : Policy) (held : List C) :
    (start cfg radius policy held).policy = policy ∧ (start cfg radius policy held).radius = radius
      ∧ (start cfg radius policy held).peers = ∅ ∧ (start cfg radius policy held).cursors = ∅
      ∧ (start cfg radius policy held).logs = ∅ ∧ (start cfg radius policy held).binOf = ∅
      ∧ (start cfg radius policy held).disc = Discovery.new := by
  have hframe : ∀ {τ : Type} (f : Node C → τ), (∀ (n : Node C) m, f { n with m := m } = f n) →
      f (start cfg radius policy held) = f (withPolicy cfg radius policy) := fun f hf =>
    foldl_frame f _ held (fun n c _ => hf n _) _
  exact ⟨hframe Node.policy fun _ _ => rfl, hframe Node.radius fun _ _ => rfl,
    hframe peers fun _ _ => rfl, hframe cursors fun _ _ => rfl, hframe logs fun _ _ => rfl,
    hframe binOf fun _ _ => rfl, hframe disc fun _ _ => rfl⟩

theorem start_machine_frame (cfg : Config) (radius : Bin) (policy : Policy) (held : List C) :
    (start cfg radius policy held).m.cfg = cfg ∧ (start cfg radius policy held).m.want = ∅
      ∧ (start cfg radius policy held).m.holders = ∅
      ∧ (start cfg radius policy held).m.excluded = ∅
      ∧ (start cfg radius policy held).m.arrived = ∅
      ∧ (start cfg radius policy held).m.rejected = ∅
      ∧ (start cfg radius policy held).m.ndeliv = 0 := by
  have hframe : ∀ {τ : Type} (f : PullState C → τ), (∀ m c, f (m.preload c).1 = f m) →
      f (start cfg radius policy held).m = f (PullState.new cfg) := fun f hf =>
    foldl_frame (fun n : Node C => f n.m) _ held (fun n c _ => hf n.m c) _
  exact ⟨hframe PullState.cfg (by simp), hframe want (by simp), hframe holders (by simp),
    hframe excluded (by simp), hframe arrived (by simp), hframe rejected (by simp),
    hframe ndeliv (by simp)⟩

/-- At the start exactly the preloaded entries are stored. -/
theorem mem_got_start (cfg : Config) (radius : Bin) (policy : Policy) (held : List C) (c : C) :
    c ∈ (start cfg radius policy held).m.got ↔ c ∈ held := by
  have hfold : ∀ (held : List C) (n : Node C),
      c ∈ (held.foldl (fun n c => (n.preload c).1) n).m.got ↔ c ∈ held ∨ c ∈ n.m.got := by
    intro held
    induction held with
    | nil => simp
    | cons d held ih =>
      intro n
      rw [List.foldl_cons, ih, List.mem_cons]
      simp only [preload, mem_got_preload]
      grind
  rw [start, hfold]
  simp [withPolicy, PullState.new]

theorem normal_start (cfg : Config) (radius : Bin) (policy : Policy) (held : List C) :
    Normalised (start cfg radius policy held).m := by
  obtain ⟨-, hw, hh, he, -⟩ := start_machine_frame cfg radius policy held
  exact ⟨by rw [hw]; exact Normal.empty, by rw [hh]; exact Normal.empty,
    by rw [he]; exact Normal.empty⟩

theorem safe_start {cfg : Config} (hd : cfg.dedup) (radius : Bin) (policy : Policy)
    (held : List C) : Safe (start cfg radius policy held).m := by
  have hsafe : ∀ (held : List C) (n : Node C), n.m.cfg = cfg → Safe n.m → n.m.want = ∅ →
      n.m.rejected = ∅ → Safe (held.foldl (fun n c => (n.preload c).1) n).m := by
    intro held
    induction held with
    | nil => exact fun n _ hs _ _ => hs
    | cons c held ih =>
      intro n hcfg hs hw hr
      have hadm : n.m.Admissible (.preload c) := by simp [Admissible, hw, hr]
      exact ih _ (by simpa [preload] using hcfg)
        (hs.act (by rw [hcfg]; exact hd) (.preload c) hadm) (by simpa [preload] using hw)
        (by simpa [preload] using hr)
  exact hsafe held _ rfl (safe_new cfg) rfl rfl

/-! ## Opening offers -/

/-- How many of the effects are offers to `k`. -/
def offersTo (k : PeerBin) (fx : List (Effect C)) : ℕ :=
  fx.countP fun
    | .offer p b _ => decide (p = k.peer ∧ b = k.bin)
    | _ => false

omit [LinearOrder C] in
@[simp] theorem offersTo_append (k : PeerBin) (fx fx' : List (Effect C)) :
    offersTo k (fx ++ fx') = offersTo k fx + offersTo k fx' :=
  List.countP_append

omit [LinearOrder C] in
/-- Effects without an offer to `k` count none. -/
theorem offersTo_eq_zero {k : PeerBin} {fx : List (Effect C)}
    (h : ∀ start, .offer k.peer k.bin start ∉ fx) : offersTo k fx = 0 := by
  rw [offersTo, List.countP_eq_zero]
  intro e he
  cases e with
  | offer p b start =>
    simp only [decide_eq_true_eq]
    rintro ⟨rfl, rfl⟩
    exact h start he
  | _ => simp

/-- An offer is emitted exactly when it opens its key. -/
def Opens (n : Node C) (r : Node C × List (Effect C)) : Prop :=
  ∀ k, offersTo k r.2 + (n.disc.offerOpen.contains k).toNat = (r.1.disc.offerOpen.contains k).toNat

/-- Effects that offer nothing leave the open offers as they are. -/
theorem opens_of_same {n n' : Node C} {fx : List (Effect C)} (hd : n'.disc = n.disc)
    (hfx : ∀ p b start, .offer p b start ∉ fx) : Opens n (n', fx) := by
  intro k
  rw [offersTo_eq_zero (fun start => hfx _ _ start), hd, Nat.zero_add]

theorem opens_feed {ι : Type} {step : Node C → ι → Node C × List (Effect C)}
    (h : ∀ n i, Opens n (step n i)) (is : List ι) (n : Node C) : Opens n (feed step n is) := by
  induction is generalizing n with
  | nil => exact opens_of_same rfl (by simp)
  | cons i is ih =>
    intro k
    have h₁ := h n i k
    have h₂ := ih (step n i).1 k
    rw [feed_cons]
    simp only [offersTo_append]
    omega

theorem openOffer_snd (n : Node C) (k : PeerBin) (start : ℕ) : (n.openOffer k start).2
    = if k ∈ n.disc.offerOpen then [] else [.offer k.peer k.bin start] := by
  simp only [openOffer, Discovery.tryOpen]
  by_cases hk : k ∈ n.disc.offerOpen <;> simp [hk]

theorem mem_open_openOffer (n : Node C) (k k' : PeerBin) (start : ℕ) :
    k' ∈ (n.openOffer k start).1.disc.offerOpen ↔ k = k' ∨ k' ∈ n.disc.offerOpen := by
  simp [openOffer, Discovery.tryOpen]

theorem opens_openOffer (n : Node C) (k : PeerBin) (start : ℕ) :
    Opens n (n.openOffer k start) := by
  intro k'
  rw [openOffer_snd]
  have hmem : (n.openOffer k start).1.disc.offerOpen.contains k'
      = (decide (k = k') || n.disc.offerOpen.contains k') := by
    rw [Bool.eq_iff_iff]
    simpa using mem_open_openOffer n k k' start
  rw [hmem]
  by_cases hkk : k = k'
  · subst hkk
    by_cases hk : k ∈ n.disc.offerOpen <;> simp [hk, offersTo]
  · have hne : ¬ (k.peer = k'.peer ∧ k.bin = k'.bin) := fun h => hkk (PeerBin.ext h.1 h.2)
    split <;> simp [hkk, offersTo, hne]

theorem opens_settleLog (n : Node C) (k : PeerBin) : Opens n (n.settleLog k) := by
  intro k'
  simp only [settleLog]
  split
  · have h := opens_openOffer
      ({ n with logs := n.logs.insert k ((n.log k).advance (settledIn n.m)).1 } : Node C) k
      ((n.log k).advance (settledIn n.m)).1.next k'
    rw [offersTo_append, offersTo_eq_zero (by simp), Nat.zero_add]
    exact h
  · rw [offersTo_eq_zero (by simp), Nat.zero_add]

/-- A round opens what it offers: the tails that settling uncovers. -/
theorem opens_round (n : Node C) : Opens n n.round := by
  intro k
  have hsettle := opens_feed opens_settleLog n.logs.keys n k
  have hdisc : n.round.1.disc = n.settle.1.disc := by
    rw [round_fst, n.planned.scheduled_spec.1.disc, n.planned_frame.2.2.2.2.2]
  have hfetch : offersTo k n.planned.schedule.2 = 0 := offersTo_eq_zero fun start h => by
    obtain ⟨p, b, want, h⟩ := mem_schedule h
    cases h
  rw [round_snd, offersTo_append, hfetch, hdisc]
  exact hsettle

/-! ## Departure -/

theorem mem_heldBy (m : PullState C) (p : PeerId) (c : C) : c ∈ m.heldBy p ↔ m.Held c p := by
  simp only [heldBy, List.mem_map, List.mem_filter, Held, setContains_iff_mem_toList]
  constructor
  · rintro ⟨e, ⟨he, hp⟩, rfl⟩
    exact ⟨e.2, he, by simpa using hp⟩
  · rintro ⟨hs, he, hp⟩
    exact ⟨(c, hs), ⟨he, by simpa using hp⟩, rfl⟩

theorem mem_claimsOf (m : PullState C) (p : PeerId) (c : C) : c ∈ m.claimsOf p ↔ m.Leased c p := by
  simp only [claimsOf, List.mem_map, List.mem_filter, Leased, setContains_iff_mem_toList]
  constructor
  · rintro ⟨e, ⟨he, hp⟩, rfl⟩
    exact ⟨e.2, he, by simpa using hp⟩
  · rintro ⟨hs, he, hp⟩
    exact ⟨(c, hs), ⟨he, by simpa using hp⟩, rfl⟩

/-- Losing a list of ids at one peer. -/
theorem foldl_loseHolder (cs : List C) (p q : PeerId) (m : PullState C) (c : C) :
    ((cs.foldl (fun m c => (m.loseHolder c p).1) m).Held c q ↔ ¬ (c ∈ cs ∧ p = q) ∧ m.Held c q)
      ∧ ((cs.foldl (fun m c => (m.loseHolder c p).1) m).Leased c q ↔
          ¬ (c ∈ cs ∧ p = q) ∧ m.Leased c q) := by
  induction cs generalizing m with
  | nil => simp
  | cons d cs ih =>
    obtain ⟨h₁, h₂⟩ := ih (m.loseHolder d p).1
    rw [List.foldl_cons, h₁, h₂, held_loseHolder, leased_loseHolder]
    simp only [List.mem_cons]
    grind

/-- A departed peer holds nothing and has no claim; nobody else is touched. -/
theorem losePeer_spec (m : PullState C) (p : PeerId) (c : C) (q : PeerId) :
    ((losePeer m p).Held c q ↔ p ≠ q ∧ m.Held c q)
      ∧ ((losePeer m p).Leased c q ↔ p ≠ q ∧ m.Leased c q) := by
  simp only [losePeer, foldl_loseHolder, mem_heldBy, mem_claimsOf]
  grind

theorem losePeer_frame (m : PullState C) (p : PeerId) :
    (losePeer m p).cfg = m.cfg ∧ (losePeer m p).Barred = m.Barred
      ∧ (losePeer m p).arrived = m.arrived ∧ (losePeer m p).got = m.got
      ∧ (losePeer m p).rejected = m.rejected ∧ (losePeer m p).ndeliv = m.ndeliv
      ∧ (losePeer m p).npre = m.npre := by
  refine ⟨?_, ?_, ?_, ?_, ?_, ?_, ?_⟩ <;>
    exact (foldl_frame _ _ _ (by simp) _).trans (foldl_frame _ _ _ (by simp) _)

theorem calls_losePeer (m : PullState C) (p : PeerId) : Calls m (losePeer m p) :=
  (Calls.foldl _ _ (fun _ c => .single ⟨.loseHolder c p, trivial, rfl⟩) _).trans
    (Calls.foldl _ _ (fun _ c => .single ⟨.loseHolder c p, trivial, rfl⟩) _)

/-- The node a departure leaves to the round. -/
def departed (n : Node C) (p : PeerId) : Node C :=
  { n with
    peers := n.peers.erase p
    m := losePeer n.m p
    logs := n.logs.filter fun k _ => k.peer != p
    cursors := n.cursors.filter fun k _ => k.peer != p
    disc := n.disc.forgetPeer p }

theorem handle_peerGone (n : Node C) (p : PeerId) :
    n.handle (.peerGone p) = (n.departed p).round := rfl

theorem logs_departed (n : Node C) (p : PeerId) (k : PeerBin) :
    (n.departed p).logs[k]? = if k.peer = p then none else n.logs[k]? := by
  simp only [departed, getElem?_filter]
  by_cases hk : k.peer = p <;> cases n.logs[k]? <;> simp [hk]

theorem open_departed (n : Node C) (p : PeerId) (k : PeerBin) :
    k ∈ (n.departed p).disc.offerOpen ↔ k.peer ≠ p ∧ k ∈ n.disc.offerOpen := by
  simp [departed, Discovery.forgetPeer, and_comm]

/-! ## Cursors and ticks -/

@[simp] theorem openOffer_frame (n : Node C) (k : PeerBin) (start : ℕ) :
    (n.openOffer k start).1.m = n.m ∧ (n.openOffer k start).1.policy = n.policy
      ∧ (n.openOffer k start).1.radius = n.radius ∧ (n.openOffer k start).1.peers = n.peers
      ∧ (n.openOffer k start).1.cursors = n.cursors ∧ (n.openOffer k start).1.logs = n.logs
      ∧ (n.openOffer k start).1.binOf = n.binOf
      ∧ (n.openOffer k start).1.assigned = n.assigned := by
  and_intros <;> rfl

/-- Where there is a log, it is the one looked up. -/
theorem getElem?_logs {n : Node C} {k : PeerBin} (h : k ∈ n.logs) :
    n.logs[k]? = some (n.log k) := by
  obtain ⟨l, hl⟩ := Option.isSome_iff_exists.mp (ExtTreeMap.isSome_getElem?_iff_mem.mpr h)
  rw [log, hl, Option.getD_some]

theorem mem_logs_iff {n : Node C} {k : PeerBin} : k ∈ n.logs ↔ ∃ l, n.logs[k]? = some l := by
  rw [← ExtTreeMap.isSome_getElem?_iff_mem, Option.isSome_iff_exists]

theorem mem_logs_round (n : Node C) (k : PeerBin) : k ∈ n.round.1.logs ↔ k ∈ n.logs := by
  rw [mem_logs_iff, mem_logs_iff, logs_round]
  cases n.logs[k]? <;> simp

/-- A part of an event that only opens the keys `K`: every log stays as it was, and each key that
was not open is offered its next range. -/
structure Offered (n : Node C) (r : Node C × List (Effect C)) (K : PeerBin → Prop) : Prop where
  m : r.1.m = n.m
  policy : r.1.policy = n.policy
  radius : r.1.radius = n.radius
  peers : r.1.peers = n.peers
  binOf : r.1.binOf = n.binOf
  log : ∀ k, r.1.log k = n.log k
  logs : ∀ k, k ∈ r.1.logs ↔ k ∈ n.logs ∨ K k
  opened : ∀ k, k ∈ r.1.disc.offerOpen ↔ k ∈ n.disc.offerOpen ∨ K k
  offers : ∀ fx ∈ r.2, ∃ k, K k ∧ k ∉ n.disc.offerOpen ∧ fx = .offer k.peer k.bin (n.log k).next
  counted : Opens n r

theorem offered_nothing (n : Node C) : Offered n (n, []) (fun _ => False) where
  m := rfl
  policy := rfl
  radius := rfl
  peers := rfl
  binOf := rfl
  log _ := rfl
  logs := by simp
  opened := by simp
  offers := by simp
  counted := opens_of_same rfl (by simp)

/-- Two such parts one after the other. -/
theorem Offered.trans {n : Node C} {r r' : Node C × List (Effect C)} {K K' : PeerBin → Prop}
    (h : Offered n r K) (h' : Offered r.1 r' K') :
    Offered n (r'.1, r.2 ++ r'.2) (fun k => K k ∨ K' k) where
  m := h'.m.trans h.m
  policy := h'.policy.trans h.policy
  radius := h'.radius.trans h.radius
  peers := h'.peers.trans h.peers
  binOf := h'.binOf.trans h.binOf
  log k := (h'.log k).trans (h.log k)
  logs k := by rw [h'.logs, h.logs, or_assoc]
  opened k := by rw [h'.opened, h.opened, or_assoc]
  offers fx hfx := by
    rcases List.mem_append.mp hfx with hfx | hfx
    · obtain ⟨k, hk, ho, rfl⟩ := h.offers fx hfx
      exact ⟨k, Or.inl hk, ho, rfl⟩
    · obtain ⟨k, hk, ho, rfl⟩ := h'.offers fx hfx
      exact ⟨k, Or.inr hk, fun hn => ho ((h.opened k).mpr (Or.inl hn)), by rw [h.log]⟩
  counted k := by
    have h₁ := h.counted k
    have h₂ := h'.counted k
    simp only [offersTo_append]
    omega

theorem offered_feed {ι : Type} (step : Node C → ι → Node C × List (Effect C))
    {K : ι → PeerBin → Prop} (is : List ι) (n : Node C)
    (h : ∀ n' : Node C, n'.radius = n.radius → n'.peers = n.peers →
      (∀ k ∈ n.logs, k ∈ n'.logs) → ∀ i ∈ is, Offered n' (step n' i) (K i)) :
    Offered n (feed step n is) (fun k => ∃ i ∈ is, K i k) := by
  induction is generalizing n with
  | nil => simpa using offered_nothing n
  | cons i is ih =>
    have h₁ := h n rfl rfl (fun _ hk => hk) i (by simp)
    have h₂ := ih (step n i).1 fun n' hr hp hl j hj =>
      h n' (hr.trans h₁.radius) (hp.trans h₁.peers)
        (fun k hk => hl k ((h₁.logs k).mpr (Or.inl hk))) j (List.mem_cons_of_mem _ hj)
    simpa [feed_cons] using h₁.trans h₂

/-- Opening one key, in a node with the same logs. -/
theorem offered_openOffer {n : Node C} {k : PeerBin} (hk : k ∈ n.logs) :
    Offered n (n.openOffer k (n.log k).next) (fun k' => k = k') where
  m := rfl
  policy := rfl
  radius := rfl
  peers := rfl
  binOf := rfl
  log _ := rfl
  logs k' := by
    refine ⟨Or.inl, ?_⟩
    rintro (h | rfl)
    · exact h
    · exact hk
  opened k' := by rw [mem_open_openOffer, or_comm]
  offers fx hfx := by
    rw [openOffer_snd] at hfx
    split at hfx
    · simp at hfx
    · next ho => exact ⟨k, rfl, ho, by simpa using hfx⟩
  counted := opens_openOffer n k _

/-- The logs a `GetCursors` answer opens: those of its bins within the radius. -/
def CursorKey (n : Node C) (peer : PeerId) (cursors : List (Bin × ℕ)) (k : PeerBin) : Prop :=
  k.peer = peer ∧ ¬ k.bin < n.radius ∧ ∃ head, (k.bin, head) ∈ cursors

theorem offered_openCursor (n : Node C) (peer : PeerId) (e : Bin × ℕ) :
    Offered n (n.openCursor peer e) (fun k => ⟨peer, e.1⟩ = k ∧ ¬ e.1 < n.radius) := by
  rw [openCursor]
  split
  · next hr => simpa [hr] using offered_nothing n
  · next hr =>
    -- the log is made present as it was, then offered
    have hlog : ∀ k', ({ n with
        cursors := n.cursors.insert ⟨peer, e.1⟩ e.2
        logs := n.logs.insert ⟨peer, e.1⟩ (n.log ⟨peer, e.1⟩) } : Node C).log k' = n.log k' := by
      intro k'
      simp only [log, ExtTreeMap.getElem?_insert, compare_eq_iff_eq]
      split
      · next hk => rw [hk]; rfl
      · rfl
    have hoff := offered_openOffer (n := { n with
        cursors := n.cursors.insert ⟨peer, e.1⟩ e.2
        logs := n.logs.insert ⟨peer, e.1⟩ (n.log ⟨peer, e.1⟩) }) (k := ⟨peer, e.1⟩) (by simp)
    refine ⟨hoff.m, hoff.policy, hoff.radius, hoff.peers, hoff.binOf,
      fun k => (hoff.log k).trans (hlog k), fun k => ?_, fun k => ?_, fun fx hfx => ?_, hoff.counted⟩
    · rw [hoff.logs]
      simp only [hr, not_false_iff, and_true, ExtTreeMap.mem_insert, compare_eq_iff_eq]
      grind
    · simpa [hr] using hoff.opened k
    · obtain ⟨k, rfl, ho, rfl⟩ := hoff.offers fx hfx
      exact ⟨_, ⟨rfl, hr⟩, ho, by rw [hlog]⟩

/-- A `GetCursors` answer opens the logs of its bins. -/
theorem offered_cursorsResult (n : Node C) (peer : PeerId) (cursors : List (Bin × ℕ)) :
    Offered n (n.handle (.cursorsResult peer cursors)) (n.CursorKey peer cursors) := by
  have h := offered_feed (openCursor peer)
    (K := fun e k => ⟨peer, e.1⟩ = k ∧ ¬ e.1 < n.radius) cursors n
    fun n' hr _ _ e _ => by simpa [hr] using offered_openCursor n' peer e
  have hK : (fun k => ∃ e ∈ cursors, (⟨peer, e.1⟩ : PeerBin) = k ∧ ¬ e.1 < n.radius)
      = n.CursorKey peer cursors := by
    funext k
    refine propext ⟨?_, ?_⟩
    · rintro ⟨e, he, rfl, hr⟩
      exact ⟨rfl, hr, e.2, he⟩
    · rintro ⟨rfl, hr, head, hh⟩
      exact ⟨(k.bin, head), hh, rfl, hr⟩
  rwa [hK] at h

/-- A tick offers every closed log of a present peer. -/
theorem offered_tick (n : Node C) :
    Offered n (n.handle .tick) (fun k => k ∈ n.logs ∧ k.peer ∈ n.peers) := by
  have h := offered_feed (fun (n : Node C) (k : PeerBin) =>
      if n.peers.contains k.peer then n.openOffer k (n.log k).next else (n, []))
    (K := fun k k' => k = k' ∧ k.peer ∈ n.peers) n.logs.keys n fun n' _ hp hl k hk => by
      have hk := hl k (ExtTreeMap.mem_keys.mp hk)
      split
      · next hc =>
        have hc : k.peer ∈ n.peers := by simpa [hp] using hc
        simpa [hc] using offered_openOffer hk
      · next hc =>
        have hc : k.peer ∉ n.peers := by simpa [hp] using hc
        simpa [hc] using offered_nothing n'
  have hK : (fun k => ∃ k' ∈ n.logs.keys, k' = k ∧ k'.peer ∈ n.peers)
      = fun k => k ∈ n.logs ∧ k.peer ∈ n.peers := by
    funext k
    simp only [ExtTreeMap.mem_keys]
    refine propext ⟨?_, fun ⟨hk, hp⟩ => ⟨k, hk, rfl, hp⟩⟩
    rintro ⟨k', hk, rfl, hp⟩
    exact ⟨hk, hp⟩
  rwa [hK] at h

/-! ## Answered offers -/

/-- What dropping a list of entries does to the node. -/
theorem foldl_dropEntry (k : PeerBin) (es : List (ℕ × C)) (n : Node C) :
    (es.foldl (dropEntry k) n).log k = es.foldl (fun l e => (l.forgetEntry e.1).1) (n.log k)
      ∧ (∀ k', k ≠ k' → (es.foldl (dropEntry k) n).logs[k']? = n.logs[k']?)
      ∧ (k ∈ n.logs → k ∈ (es.foldl (dropEntry k) n).logs)
      ∧ (es.foldl (dropEntry k) n).m = es.foldl (fun m e => (m.loseHolder e.2 k.peer).1) n.m := by
  induction es generalizing n with
  | nil => exact ⟨rfl, fun _ _ => rfl, id, rfl⟩
  | cons e es ih =>
    obtain ⟨h₁, h₂, h₃, h₄⟩ := ih (dropEntry k n e)
    refine ⟨?_, fun k' hk => ?_, fun _ => h₃ (by simp [dropEntry]), h₄⟩
    · rw [List.foldl_cons, h₁]
      simp [dropEntry, log]
    · rw [List.foldl_cons, h₂ k' hk]
      simp only [dropEntry, ExtTreeMap.getElem?_insert, compare_eq_iff_eq, hk, if_false]

/-- What ingesting a list of entries does to the node. -/
theorem foldl_ingest (k : PeerBin) (cursor : ℕ) (refs : List (ℕ × C)) (n : Node C) :
    (refs.foldl (ingest k cursor) n).log k = refs.foldl (fun l e => l.observe e.1 e.2) (n.log k)
      ∧ (∀ k', k ≠ k' → (refs.foldl (ingest k cursor) n).logs[k']? = n.logs[k']?)
      ∧ (k ∈ n.logs → k ∈ (refs.foldl (ingest k cursor) n).logs)
      ∧ (∀ c, (refs.foldl (ingest k cursor) n).binOf[c]? =
          if c ∈ refs.map (·.2) then some k.bin else n.binOf[c]?) := by
  induction refs generalizing n with
  | nil => exact ⟨rfl, fun _ _ => rfl, id, by simp⟩
  | cons e refs ih =>
    obtain ⟨h₁, h₂, h₃, h₄⟩ := ih (ingest k cursor n e)
    refine ⟨?_, fun k' hk => ?_, fun _ => h₃ (by simp [ingest]), fun c => ?_⟩
    · rw [List.foldl_cons, h₁]
      simp [ingest, log]
    · rw [List.foldl_cons, h₂ k' hk]
      simp only [ingest, ExtTreeMap.getElem?_insert, compare_eq_iff_eq, hk, if_false]
    · rw [List.foldl_cons, h₄]
      simp only [ingest, ExtTreeMap.getElem?_insert, compare_eq_iff_eq, List.map_cons,
        List.mem_cons, @eq_comm _ c]
      grind

/-- What ingesting a list of entries does to the machine. -/
theorem foldl_ingest_machine (k : PeerBin) (cursor : ℕ) (refs : List (ℕ × C)) (n : Node C) :
    (∀ c q, (refs.foldl (ingest k cursor) n).m.Held c q ↔
        (c ∈ refs.map (·.2) ∧ k.peer = q) ∨ n.m.Held c q)
      ∧ ∀ c, c ∈ (refs.foldl (ingest k cursor) n).m.arrived ↔
        c ∈ n.m.arrived ∨ c ∈ refs.map (·.2) ∧ c ∉ n.m.got ∧ c ∉ n.m.rejected := by
  induction refs generalizing n with
  | nil => simp
  | cons e refs ih =>
    obtain ⟨h₁, h₂⟩ := ih (ingest k cursor n e)
    have hheld : ∀ c q, (ingest k cursor n e).m.Held c q ↔
        e.2 = c ∧ k.peer = q ∨ n.m.Held c q := by
      intro c q
      simp only [ingest]
      split <;> simp
    have harr : ∀ c, c ∈ (ingest k cursor n e).m.arrived ↔
        c ∈ n.m.arrived ∨ e.2 = c ∧ c ∉ n.m.got ∧ c ∉ n.m.rejected := by
      intro c
      simp only [ingest]
      split <;> simp
    have hgot : (ingest k cursor n e).m.got = n.m.got
        ∧ (ingest k cursor n e).m.rejected = n.m.rejected := by
      simp only [ingest]
      split <;> simp
    refine ⟨fun c q => ?_, fun c => ?_⟩
    · rw [List.foldl_cons, h₁, hheld, List.map_cons, List.mem_cons]
      grind
    · rw [List.foldl_cons, h₂, harr, hgot.1, hgot.2, List.map_cons, List.mem_cons]
      grind

variable (n : Node C) (k : PeerBin) (start : ℕ) (refs : List (ℕ × C)) (topmost : ℕ)

/-- The node between the drop and the ingestion of an answer. -/
def dropped : Node C :=
  (lost (n.log k) start refs topmost).foldl (dropEntry k)
    { n with
      disc := n.disc.close k
      logs := n.logs.insert k ((n.log k).cover (max topmost start)) }

theorem answerOffer_eq : n.answerOffer k start refs topmost
    = refs.foldl (ingest k (n.cursors[k]?.getD 0)) (n.dropped k start refs topmost) := by
  have hlost : lost ((n.log k).cover (max topmost start)) start refs topmost
      = lost (n.log k) start refs topmost := rfl
  simp only [answerOffer, dropped, log, ExtTreeMap.getElem?_insert_self, Option.getD_some]
  rw [← log, hlost]

theorem dropped_frame {τ : Type} (f : Node C → τ)
    (hf : ∀ n : Node C, ∀ logs m, f { n with logs := logs, m := m } = f n) :
    f (n.dropped k start refs topmost) = f { n with disc := n.disc.close k } := by
  refine (foldl_frame f (dropEntry k) _ (fun n' e _ => ?_) _).trans ?_
  · exact hf n' _ _
  · exact hf { n with disc := n.disc.close k } _ n.m

theorem answerOffer_frame :
    (n.answerOffer k start refs topmost).policy = n.policy
      ∧ (n.answerOffer k start refs topmost).radius = n.radius
      ∧ (n.answerOffer k start refs topmost).peers = n.peers
      ∧ (n.answerOffer k start refs topmost).cursors = n.cursors
      ∧ (n.answerOffer k start refs topmost).assigned = n.assigned
      ∧ (n.answerOffer k start refs topmost).disc = n.disc.close k := by
  rw [answerOffer_eq]
  have hframe : ∀ {τ : Type} (f : Node C → τ),
      (∀ (n : Node C) logs m binOf, f { n with logs := logs, m := m, binOf := binOf } = f n) →
      f (refs.foldl (ingest k (n.cursors[k]?.getD 0)) (n.dropped k start refs topmost))
        = f { n with disc := n.disc.close k } := fun f hf =>
    (foldl_frame f _ refs (fun n' e _ => hf n' _ _ _) _).trans
      (n.dropped_frame k start refs topmost f fun n' logs m => hf n' logs m n'.binOf)
  exact ⟨hframe policy fun _ _ _ _ => rfl, hframe radius fun _ _ _ _ => rfl,
    hframe peers fun _ _ _ _ => rfl, hframe cursors fun _ _ _ _ => rfl,
    hframe assigned fun _ _ _ _ => rfl, hframe disc fun _ _ _ _ => rfl⟩

/-- What none of the machine's calls of an answer touches. -/
theorem answerOffer_machine {τ : Type} (f : PullState C → τ)
    (ho : ∀ m c q, f (m.observeHolder c q).1 = f m) (hp : ∀ m c b, f (m.setPrio c b) = f m)
    (ha : ∀ m c, f (m.arriveHist c).1 = f m) (hl : ∀ m c, f (m.arriveLive c).1 = f m)
    (hx : ∀ m c q, f (m.loseHolder c q).1 = f m) :
    f (n.answerOffer k start refs topmost).m = f n.m := by
  have hdrop : f (n.dropped k start refs topmost).m = f n.m :=
    foldl_frame (fun n' : Node C => f n'.m) (dropEntry k) _ (fun n' e _ => hx n'.m e.2 k.peer) _
  rw [answerOffer_eq, ← hdrop]
  refine foldl_frame (fun n' : Node C => f n'.m) _ refs (fun n' e _ => ?_) _
  simp only [ingest]
  split
  · rw [hl, hp, ho]
  · rw [ha, hp, ho]

theorem answerOffer_machine_frame :
    (n.answerOffer k start refs topmost).m.cfg = n.m.cfg
      ∧ (n.answerOffer k start refs topmost).m.Barred = n.m.Barred
      ∧ (n.answerOffer k start refs topmost).m.got = n.m.got
      ∧ (n.answerOffer k start refs topmost).m.rejected = n.m.rejected
      ∧ (n.answerOffer k start refs topmost).m.ndeliv = n.m.ndeliv
      ∧ (n.answerOffer k start refs topmost).m.npre = n.m.npre := by
  refine ⟨?_, ?_, ?_, ?_, ?_, ?_⟩ <;>
    exact n.answerOffer_machine k start refs topmost _ (by simp) (by simp) (by simp) (by simp)
      (by simp)

theorem calls_answerOffer : Calls n.m (n.answerOffer k start refs topmost).m := by
  rw [answerOffer_eq]
  refine foldl_invariant (I := fun n' : Node C => Calls n.m n'.m) _ refs (fun n' h e _ => ?_) <|
    foldl_invariant (I := fun n' : Node C => Calls n.m n'.m) _ _
      (fun n' h e _ => h.tail ⟨.loseHolder e.2 k.peer, trivial, rfl⟩) .refl
  have h := (h.tail ⟨.observeHolder e.2 k.peer, trivial, rfl⟩).tail
    ⟨.setPrio e.2 k.bin, trivial, rfl⟩
  simp only [ingest]
  split
  · exact h.tail ⟨.arriveLive e.2, trivial, rfl⟩
  · exact h.tail ⟨.arriveHist e.2, trivial, rfl⟩

theorem mem_logs_answerOffer : k ∈ (n.answerOffer k start refs topmost).logs := by
  rw [answerOffer_eq]
  exact (foldl_ingest k _ refs _).2.2.1 ((foldl_dropEntry k _ _).2.2.1 (by simp))

theorem log_answerOffer : (n.answerOffer k start refs topmost).log k
    = answeredLog (n.log k) start refs topmost := by
  rw [answerOffer_eq, (foldl_ingest k _ refs _).1, dropped, (foldl_dropEntry k _ _).1]
  simp only [log, ExtTreeMap.getElem?_insert, compare_eq_iff_eq, if_true]
  rfl

theorem logs_answerOffer_ne {k' : PeerBin} (hk : k ≠ k') :
    (n.answerOffer k start refs topmost).logs[k']? = n.logs[k']? := by
  rw [answerOffer_eq, (foldl_ingest k _ refs _).2.1 k' hk, dropped, (foldl_dropEntry k _ _).2.1 k' hk]
  simp only [ExtTreeMap.getElem?_insert, compare_eq_iff_eq, hk, if_false]

theorem binOf_answerOffer (c : C) : (n.answerOffer k start refs topmost).binOf[c]? =
    if c ∈ refs.map (·.2) then some k.bin else n.binOf[c]? := by
  rw [answerOffer_eq, (foldl_ingest k _ refs _).2.2.2, n.dropped_frame k start refs topmost binOf
    fun _ _ _ => rfl]

/-- What an answer holds: it names its holdings, and it drops those it should name and does not. -/
theorem held_answerOffer (c : C) (q : PeerId) : (n.answerOffer k start refs topmost).m.Held c q ↔
    (c ∈ refs.map (·.2) ∧ k.peer = q) ∨
      ¬ (c ∈ (lost (n.log k) start refs topmost).map (·.2) ∧ k.peer = q) ∧ n.m.Held c q := by
  rw [answerOffer_eq, (foldl_ingest_machine k _ refs _).1, dropped, (foldl_dropEntry k _ _).2.2.2,
    ← List.foldl_map (f := fun e : ℕ × C => e.2) (g := fun m c => (PullState.loseHolder m c k.peer).1),
    (foldl_loseHolder _ _ _ _ _).1]

theorem leased_answerOffer (c : C) (q : PeerId) :
    (n.answerOffer k start refs topmost).m.Leased c q ↔
      ¬ (c ∈ (lost (n.log k) start refs topmost).map (·.2) ∧ k.peer = q) ∧ n.m.Leased c q := by
  have hingest : (n.answerOffer k start refs topmost).m.Leased
      = (n.dropped k start refs topmost).m.Leased := by
    rw [answerOffer_eq]
    refine foldl_frame (fun n' : Node C => n'.m.Leased) _ refs (fun n' e _ => ?_) _
    simp only [ingest]
    split <;> simp
  rw [hingest, dropped, (foldl_dropEntry k _ _).2.2.2,
    ← List.foldl_map (f := fun e : ℕ × C => e.2) (g := fun m c => (PullState.loseHolder m c k.peer).1),
    (foldl_loseHolder _ _ _ _ _).2]

theorem mem_arrived_answerOffer (c : C) : c ∈ (n.answerOffer k start refs topmost).m.arrived ↔
    c ∈ n.m.arrived ∨ c ∈ refs.map (·.2) ∧ c ∉ n.m.got ∧ c ∉ n.m.rejected := by
  have hdrop : ∀ {τ : Type} (f : PullState C → τ), (∀ m c q, f (m.loseHolder c q).1 = f m) →
      f (n.dropped k start refs topmost).m = f n.m := fun f hf =>
    foldl_frame (fun n' : Node C => f n'.m) (dropEntry k) _ (fun n' e _ => hf n'.m e.2 k.peer) _
  rw [answerOffer_eq, (foldl_ingest_machine k _ refs _).2, hdrop PullState.arrived (by simp),
    hdrop PullState.got (by simp), hdrop PullState.rejected (by simp)]

theorem handle_offerResult (peer : PeerId) (bin : Bin) :
    n.handle (.offerResult peer bin start refs topmost)
      = (n.answerOffer ⟨peer, bin⟩ start refs topmost).round := rfl

/-! ## Outcomes -/

/-- The node the outcomes of a fetch leave to the round. -/
def reported (peer : PeerId) (outcomes : List (C × Outcome)) : Node C :=
  { n with m := outcomes.foldl (report peer) n.m }

theorem handle_fetchResult (peer : PeerId) (bin : Bin) (outcomes : List (C × Outcome)) :
    n.handle (.fetchResult peer bin outcomes) = (n.reported peer outcomes).round := rfl

theorem calls_report (peer : PeerId) (m : PullState C) (e : C × Outcome) :
    Calls m (report peer m e) := by
  obtain ⟨c, o⟩ := e
  cases o with
  | delivered => exact .single ⟨.deliver c peer, trivial, rfl⟩
  | rejected => exact .single ⟨.reject c, trivial, rfl⟩
  | missed => exact .single ⟨.stall c peer, trivial, rfl⟩

@[simp] theorem report_frame (peer : PeerId) (m : PullState C) (e : C × Outcome) :
    (report peer m e).cfg = m.cfg ∧ (report peer m e).Held = m.Held
      ∧ (report peer m e).prio = m.prio ∧ (report peer m e).npre = m.npre := by
  obtain ⟨c, o⟩ := e
  cases o <;> simp [report]

/-! ## Every event -/

/-- The machine moves by its own calls only. -/
theorem calls_handle (ev : Event C) : Calls n.m (n.handle ev).1.m := by
  cases ev with
  | peerSeen p =>
    simp only [handle]
    split <;> exact .refl
  | peerGone p =>
    rw [handle_peerGone]
    exact (calls_losePeer n.m p).trans (n.departed p).calls_round
  | cursorsResult peer cursors =>
    rw [(n.offered_cursorsResult peer cursors).m]
  | offerResult peer bin start refs topmost =>
    rw [handle_offerResult]
    exact (n.calls_answerOffer _ start refs topmost).trans (calls_round _)
  | tick => rw [n.offered_tick.m]
  | fetchResult peer bin outcomes =>
    rw [handle_fetchResult]
    exact (Calls.foldl _ outcomes (calls_report peer) n.m).trans (n.reported peer outcomes).calls_round

/-- With at most one claim an id, every run keeps the machine safe. -/
theorem safe_handle (hd : n.m.cfg.dedup) (h : Safe n.m) (ev : Event C) :
    Safe (n.handle ev).1.m :=
  (n.calls_handle ev).safe hd h

theorem policy_handle (ev : Event C) : (n.handle ev).1.policy = n.policy := by
  cases ev with
  | peerSeen p =>
    simp only [handle]
    split <;> rfl
  | peerGone p => exact (round_frame _).1
  | cursorsResult peer cursors => exact (n.offered_cursorsResult peer cursors).policy
  | offerResult peer bin start refs topmost =>
    exact (round_frame _).1.trans (n.answerOffer_frame ⟨peer, bin⟩ start refs topmost).1
  | tick => exact n.offered_tick.policy
  | fetchResult peer bin outcomes => exact (round_frame _).1

theorem radius_handle (ev : Event C) : (n.handle ev).1.radius = n.radius := by
  cases ev with
  | peerSeen p =>
    simp only [handle]
    split <;> rfl
  | peerGone p => exact (round_frame _).2.1
  | cursorsResult peer cursors => exact (n.offered_cursorsResult peer cursors).radius
  | offerResult peer bin start refs topmost =>
    exact (round_frame _).2.1.trans (n.answerOffer_frame ⟨peer, bin⟩ start refs topmost).2.1
  | tick => exact n.offered_tick.radius
  | fetchResult peer bin outcomes => exact (round_frame _).2.1

/-- No event preloads. -/
theorem npre_handle (ev : Event C) : (n.handle ev).1.m.npre = n.m.npre := by
  cases ev with
  | peerSeen p =>
    simp only [handle]
    split <;> rfl
  | peerGone p =>
    rw [handle_peerGone, (settled_round _).2.2.2]
    exact (losePeer_frame n.m p).2.2.2.2.2.2
  | cursorsResult peer cursors => rw [(n.offered_cursorsResult peer cursors).m]
  | offerResult peer bin start refs topmost =>
    rw [handle_offerResult, (settled_round _).2.2.2]
    exact (n.answerOffer_machine_frame _ start refs topmost).2.2.2.2.2
  | tick => rw [n.offered_tick.m]
  | fetchResult peer bin outcomes =>
    rw [handle_fetchResult, (settled_round _).2.2.2]
    exact foldl_frame PullState.npre (report peer) outcomes (by simp) n.m

/-! ## The round an event ends in -/

/-- The events that end in a round. -/
def endsInRound : Event C → Bool
  | .peerGone _ => true
  | .offerResult .. => true
  | .fetchResult .. => true
  | _ => false

/-- The node an event leaves to the round it ends in. -/
def ingested (n : Node C) : Event C → Node C
  | .peerGone p => n.departed p
  | .offerResult peer bin start refs topmost => n.answerOffer ⟨peer, bin⟩ start refs topmost
  | .fetchResult peer _ outcomes => n.reported peer outcomes
  | _ => n

theorem handle_eq_round (n : Node C) {ev : Event C} (h : endsInRound ev) :
    n.handle ev = (n.ingested ev).round := by
  cases ev with
  | peerGone p => exact n.handle_peerGone p
  | offerResult peer bin start refs topmost => exact n.handle_offerResult start refs topmost peer bin
  | fetchResult peer bin outcomes => exact n.handle_fetchResult peer bin outcomes
  | _ => cases h

/-- An event that ends in no round ingests nothing. -/
theorem ingested_of_quiet (n : Node C) {ev : Event C} (h : ¬ endsInRound ev) : n.ingested ev = n := by
  cases ev <;> first | rfl | exact absurd rfl h

theorem calls_ingested (n : Node C) (ev : Event C) : Calls n.m (n.ingested ev).m := by
  cases ev with
  | peerGone p => exact calls_losePeer n.m p
  | offerResult peer bin start refs topmost => exact n.calls_answerOffer _ start refs topmost
  | fetchResult peer bin outcomes => exact Calls.foldl _ outcomes (calls_report peer) n.m
  | _ => exact .refl

/-- A part of an event that leaves the machine, the bins and every log alone, and at most asks a
peer for cursors or offers. -/
structure Quiet (n : Node C) (r : Node C × List (Effect C)) : Prop where
  m : r.1.m = n.m
  binOf : r.1.binOf = n.binOf
  log : ∀ k, r.1.log k = n.log k
  effects : ∀ fx ∈ r.2, (∃ p, fx = .getCursors p) ∨
    ∃ k : PeerBin, fx = .offer k.peer k.bin (n.log k).next

theorem Offered.quiet {n : Node C} {r : Node C × List (Effect C)} {K : PeerBin → Prop}
    (h : Offered n r K) : Quiet n r where
  m := h.m
  binOf := h.binOf
  log := h.log
  effects fx hfx := by
    obtain ⟨k, -, -, hk⟩ := h.offers fx hfx
    exact .inr ⟨k, hk⟩

/-- The events that end in no round are quiet. -/
theorem quiet_handle (n : Node C) {ev : Event C} (h : ¬ endsInRound ev) : Quiet n (n.handle ev) := by
  cases ev with
  | peerSeen p =>
    simp only [handle]
    split
    · exact ⟨rfl, rfl, fun _ => rfl, by simp⟩
    · exact ⟨rfl, rfl, fun _ => rfl, by simp⟩
  | cursorsResult peer cursors => exact (n.offered_cursorsResult peer cursors).quiet
  | tick => exact n.offered_tick.quiet
  | _ => exact absurd rfl h

/-- What a round fetches was held, arrived, not stored and not leased, and lies in that bin. -/
theorem mem_fetched {n : Node C} {p : PeerId} {b : Bin} {c : C} (h : c ∈ n.planned.fetched ⟨p, b⟩) :
    n.planned.bin c = b ∧ ¬ n.m.Leased c p ∧ n.planned.m.Held c p ∧ c ∈ n.planned.m.arrived
      ∧ c ∉ n.m.got := by
  obtain ⟨h₁, h₂, h₃, h₄, h₅⟩ := n.planned.scheduled_spec.1.fresh ⟨p, b⟩ c h
  rw [n.planned_machine_frame.2.2.1] at h₂
  rw [n.planned_machine_frame.2.2.2.1] at h₅
  exact ⟨h₁, h₂, h₃, h₄, h₅⟩

/-- Every fetch is a batch of the round its event ends in. -/
theorem fetch_mem_handle (n : Node C) (ev : Event C) (p : PeerId) (b : Bin) (want : List C) :
    .fetch p b want ∈ (n.handle ev).2 ↔
      endsInRound ev ∧ want ≠ [] ∧ want = (n.ingested ev).planned.fetched ⟨p, b⟩ := by
  by_cases hr : endsInRound ev
  · rw [n.handle_eq_round hr, fetch_mem_round, and_iff_right hr]
  · refine ⟨fun h => ?_, fun h => absurd h.1 hr⟩
    rcases (n.quiet_handle hr).effects _ h with ⟨q, hq⟩ | ⟨k, hk⟩
    · cases hq
    · cases hk

/-- The leases after an event: those its ingestion leaves, and what it fetches. -/
theorem leased_handle (n : Node C) (ev : Event C) (c : C) (p : PeerId) :
    (n.handle ev).1.m.Leased c p ↔ (n.ingested ev).m.Leased c p ∨
      ∃ b want, .fetch p b want ∈ (n.handle ev).2 ∧ c ∈ want := by
  by_cases hr : endsInRound ev
  · rw [n.handle_eq_round hr, leased_round]
    refine or_congr_right ⟨fun h => ?_, ?_⟩
    · exact ⟨_, _, (fetch_mem_round _ p _ _).mpr ⟨List.ne_nil_of_mem h, rfl⟩, h⟩
    · rintro ⟨b, want, hf, hc⟩
      obtain ⟨-, hwant⟩ := (fetch_mem_round _ p b want).mp hf
      rw [hwant] at hc
      rwa [(mem_fetched hc).1]
  · have hquiet := n.quiet_handle hr
    rw [hquiet.m, n.ingested_of_quiet hr]
    refine ⟨.inl, fun h => h.resolve_right ?_⟩
    rintro ⟨b, want, hf, -⟩
    exact hr ((fetch_mem_handle n ev p b want).mp hf).1

/-- Two effects that fetch nothing twice from one peer. -/
def Apart (f g : Effect C) : Prop :=
  ∀ p b want b' want', f = .fetch p b want → g = .fetch p b' want' → ∀ c ∈ want, c ∉ want'

theorem schedule_snd (n : Node C) : n.schedule.2
    = n.scheduled.batches.toList.map fun e => .fetch e.1.peer e.1.bin e.2 := rfl

/-- The batches have distinct keys, and a triple is batched under its own bin. -/
theorem apart_schedule (n : Node C) : n.schedule.2.Pairwise Apart := by
  have hbatch : ∀ {e : PeerBin × List C} {p b want c}, e ∈ n.scheduled.batches.toList →
      Effect.fetch e.1.peer e.1.bin e.2 = .fetch p b want → c ∈ want →
      e.1 = ⟨p, b⟩ ∧ n.bin c = b := by
    rintro ⟨k, w⟩ p b want c he h hc
    simp only [Effect.fetch.injEq] at h
    obtain ⟨rfl, rfl, rfl⟩ := h
    refine ⟨rfl, (n.scheduled_spec.1.fresh k c ?_).1⟩
    rw [Sched.batch, (mem_entries _ _ _).mp he]
    exact hc
  rw [schedule_snd, List.pairwise_map]
  refine (sorted_entries n.scheduled.batches).imp_of_mem fun {e e'} he he' hlt => ?_
  rintro p b want b' want' h h' c hc hc'
  obtain ⟨h₁, h₂⟩ := hbatch he h hc
  obtain ⟨h₁', h₂'⟩ := hbatch he' h' hc'
  rw [h₁, h₁', ← h₂, ← h₂'] at hlt
  exact lt_irrefl _ hlt

omit [LinearOrder C] in
/-- Effects that fetch nothing are apart from all others. -/
theorem apart_of_ne {f : Effect C} (h : ∀ p b want, f ≠ .fetch p b want) (g : Effect C) :
    Apart f g :=
  fun p b want _ _ hf => absurd hf (h p b want)

/-- The fetches of one event are apart. -/
theorem apart_handle (n : Node C) (ev : Event C) : (n.handle ev).2.Pairwise Apart := by
  by_cases hr : endsInRound ev
  · have hsettle : ∀ fx ∈ (n.ingested ev).settle.2, ∀ p b want, fx ≠ .fetch p b want := by
      rintro fx hfx p b want rfl
      rw [effects_settle, List.mem_flatMap] at hfx
      obtain ⟨k, -, h⟩ := hfx
      simp [settleEffects] at h
    rw [n.handle_eq_round hr, round_snd, List.pairwise_append]
    exact ⟨List.pairwise_of_forall_mem_list fun f hf g _ => apart_of_ne (hsettle f hf) g,
      apart_schedule _, fun f hf g _ => apart_of_ne (hsettle f hf) g⟩
  · refine List.pairwise_of_forall_mem_list fun f hf g _ => apart_of_ne (fun p b want h => ?_) g
    rw [h] at hf
    exact absurd ((fetch_mem_handle n ev p b want).mp hf).1 hr

/-- Stored or terminally rejected. -/
def Settled (n : Node C) (c : C) : Prop := c ∈ n.m.got ∨ c ∈ n.m.rejected

/-- What is settled stays settled. -/
theorem Settled.handle {n : Node C} {c : C} (h : Settled n c) (ev : Event C) :
    Settled (n.handle ev).1 c := by
  have hmono := (n.calls_handle ev).settled_mono
  exact h.imp (hmono.1 c) (hmono.2 c)

/-! ## The offers that are open -/

/-- The events that close the offer of `k`: its answer, and the departure of its peer. -/
def Closes (k : PeerBin) : Event C → Prop
  | .offerResult p b _ _ _ => p = k.peer ∧ b = k.bin
  | .peerGone p => p = k.peer
  | _ => False

instance decidableCloses (k : PeerBin) : (ev : Event C) → Decidable (Closes k ev)
  | .offerResult _ _ _ _ _ => inferInstanceAs (Decidable (_ ∧ _))
  | .peerGone _ => inferInstanceAs (Decidable (_ = _))
  | .peerSeen _ | .cursorsResult _ _ | .tick | .fetchResult _ _ _ =>
    inferInstanceAs (Decidable False)

/-- What an event closes is closed before the round. -/
theorem open_ingested (n : Node C) (ev : Event C) (k : PeerBin) :
    k ∈ (n.ingested ev).disc.offerOpen ↔ k ∈ n.disc.offerOpen ∧ ¬ Closes k ev := by
  cases ev with
  | peerGone p =>
    rw [ingested, open_departed, Closes, and_comm, eq_comm]
  | offerResult p b start refs topmost =>
    have hkey : (⟨p, b⟩ : PeerBin) = k ↔ p = k.peer ∧ b = k.bin := PeerBin.ext_iff
    rw [ingested, (n.answerOffer_frame _ start refs topmost).2.2.2.2.2, Closes, ← hkey]
    simp [Discovery.close, and_comm]
  | _ => simp [ingested, reported, Closes]

/-- Each key that is open stays so unless the event closes it, and each offer emitted opens its key:
no key is offered that was open already. -/
theorem opens_handle (n : Node C) (ev : Event C) (k : PeerBin) :
    offersTo k (n.handle ev).2 + (n.disc.offerOpen.contains k && !decide (Closes k ev)).toNat
      = ((n.handle ev).1.disc.offerOpen.contains k).toNat := by
  have hopens : Opens (n.ingested ev) (n.handle ev) := by
    by_cases hr : endsInRound ev
    · rw [n.handle_eq_round hr]
      exact opens_round _
    · cases ev with
      | peerSeen p =>
        simp only [handle]
        split <;> exact opens_of_same rfl (by simp)
      | cursorsResult p cs => exact (n.offered_cursorsResult p cs).counted
      | tick => exact n.offered_tick.counted
      | _ => exact absurd rfl hr
  have hkept : (n.disc.offerOpen.contains k && !decide (Closes k ev))
      = (n.ingested ev).disc.offerOpen.contains k := by
    rw [Bool.eq_iff_iff]
    simpa using (n.open_ingested ev k).symm
  rw [hkept]
  exact hopens k

/-- The open keys after an event: those it leaves open, and those it offers. -/
theorem open_handle (n : Node C) (ev : Event C) (k : PeerBin) :
    k ∈ (n.handle ev).1.disc.offerOpen ↔
      k ∈ n.disc.offerOpen ∧ ¬ Closes k ev ∨ 0 < offersTo k (n.handle ev).2 := by
  have h := n.opens_handle ev k
  have hkept : (n.disc.offerOpen.contains k && !decide (Closes k ev)) = true
      ↔ k ∈ n.disc.offerOpen ∧ ¬ Closes k ev := by simp
  rw [← ExtTreeSet.contains_iff_mem, ← hkept]
  cases h₁ : (n.handle ev).1.disc.offerOpen.contains k <;>
    cases h₂ : n.disc.offerOpen.contains k && !decide (Closes k ev) <;>
    simp only [h₁, h₂, Bool.toNat_true, Bool.toNat_false] at h <;> simp <;> omega

/-! ## Runs -/

@[simp] theorem run_nil (n : Node C) : n.run [] = (n, []) := rfl

theorem run_cons (n : Node C) (ev : Event C) (evs : List (Event C)) : n.run (ev :: evs) =
    (((n.handle ev).1.run evs).1, (n.handle ev).2 ++ ((n.handle ev).1.run evs).2) := rfl

theorem run_snoc_fst (n : Node C) (evs : List (Event C)) (ev : Event C) :
    (n.run (evs ++ [ev])).1 = ((n.run evs).1.handle ev).1 :=
  feed_snoc_fst handle n evs ev

theorem cfg_run (n : Node C) (evs : List (Event C)) : (n.run evs).1.m.cfg = n.m.cfg :=
  feed_frame handle (fun n => n.m.cfg) (fun n ev => (n.calls_handle ev).cfg_eq) n evs

theorem safe_run {n : Node C} (hd : n.m.cfg.dedup) (h : Safe n.m) (evs : List (Event C)) :
    Safe (n.run evs).1.m := by
  induction evs generalizing n with
  | nil => exact h
  | cons ev evs ih =>
    rw [run_cons]
    exact ih (by rwa [(n.calls_handle ev).cfg_eq]) (n.safe_handle hd h ev)

/-- Every event of a run meets a condition on it and on the node it finds. -/
def Along (P : Node C → Event C → Prop) : Node C → List (Event C) → Prop
  | _, [] => True
  | n, ev :: evs => P n ev ∧ Along P (n.handle ev).1 evs

theorem along_snoc (P : Node C → Event C → Prop) (n : Node C) (evs : List (Event C))
    (ev : Event C) : Along P n (evs ++ [ev]) ↔ Along P n evs ∧ P (n.run evs).1 ev := by
  induction evs generalizing n with
  | nil => simp [Along]
  | cons ev' evs ih => rw [List.cons_append, Along, Along, ih, run_cons, and_assoc]

end Melissi.Node
