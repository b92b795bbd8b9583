import Melissi.Puller.Converge
import Melissi.Sim.Invariant

/-!
# Replication at the delivery floor

However the messages are ordered, a neighbourhood with none left has converged: what any node was
given is in the index of every node, each triple was delivered once to each node that was not given
it, and every delivery served was counted.
-/

namespace Melissi.Sim

open Melissi.Common Melissi.Machine Melissi.Settlement Melissi.Node Melissi.Puller
open Std (ExtTreeMap ExtTreeSet)

/-! ## What the neighbourhood logs -/

/-- A triple lives in a bin of the universe, within the radius. -/
theorem binOf_mem (c : Triple) : binOf c ∈ bins ∧ ¬ binOf c < radius := by
  have hmod : ∀ x : UInt8, x % 2 = 0 ∨ x % 2 = 1 := fun x => by
    rcases Nat.mod_two_eq_zero_or_one x.toNat with h | h
    · exact .inl (UInt8.toNat_inj.mp h)
    · exact .inr (UInt8.toNat_inj.mp h)
  rw [binOf]
  rcases hmod (c.address.1.getD 31 0) with h | h <;> rw [show nbins = 2 from rfl, h] <;> decide

section

variable {policy : Policy} {hwin : 1 ≤ policy.window} {held : ℕ → List Triple} {s : Sim} {i : ℕ}
  {w : World Triple}

/-- The logs that a node pulls from hold what the other nodes index. -/
theorem Inv.logged (h : Inv policy hwin held s) (hw : Mirrors s i w) (c : Triple) :
    Logged (setting s.k policy hwin i (held i)) w c
      ↔ ∃ j < s.k, j ≠ i ∧ c ∈ (s.nodes j).index := by
  constructor
  · rintro ⟨k, hk, b, hb⟩
    obtain ⟨hj, hji⟩ := toNat_of_mem_peersOf h.few ((Setting.mem_keys _ _).mp hk).1.1
    rw [hw.logs] at hb
    refine ⟨k.peer.toNat, hj, hji, (h.filed _ hj c).mpr ⟨b, ?_⟩⟩
    rw [h.binned _ hj k.bin b c hb]
    exact hb
  · rintro ⟨j, hj, hji, hc⟩
    obtain ⟨b, hb⟩ := (h.filed j hj c).mp hc
    obtain ⟨hbin, hrad⟩ := binOf_mem c
    refine ⟨⟨peerId j, binOf c⟩, (Setting.mem_keys _ _).mpr ⟨⟨?_, hbin⟩, hrad⟩, b, ?_⟩
    · exact mem_peersOf.mpr ⟨j, hj, hji, rfl⟩
    · rw [hw.logs]
      dsimp only
      rwa [toNat_peerId (Nat.lt_of_lt_of_le hj h.few)]

/-- What is on its way to a node was given to some node. -/
theorem Inv.delivered_known {ev : Event Triple} (h : Inv policy hwin held (s.post [.resp i ev]))
    {c : Triple} (hc : c ∈ delivered ev) : ∃ j < s.k, c ∈ held j := by
  have hmem : Msg.resp i ev ∈ (s.post [.resp i ev]).queue := by simp [post]
  have hproper := h.proper _ hmem
  cases ev with
  | fetchResult p b outcomes =>
    obtain ⟨w, hs, hmet, hw⟩ := h.sees i hproper.1
    have hpend : .fetch p b (outcomes.map (·.1)) ∈ w.pending :=
      hw.pending_of_carries hmem (by simp) (by simp [Msg.carries, answers])
    have hwant : c ∈ outcomes.map (·.1) := by
      obtain ⟨e, he, rfl⟩ := List.mem_map.mp hc
      exact List.mem_map.mpr ⟨e, (List.mem_filter.mp he).1, rfl⟩
    obtain ⟨j, hj, -, hx⟩ :=
      (h.logged hw c).mp (hs.covered.logged_of_wanted hs.account hpend hwant)
    exact h.known j hj c hx
  | _ => cases hc

/-! ## What is stored is indexed -/

/-- The nodes are as many, and each still has the peers it had. -/
structure Onward (s s' : Sim) : Prop where
  k : s'.k = s.k
  peers : ∀ i p, p ∈ (s.nodes i).puller.peers → p ∈ (s'.nodes i).puller.peers

theorem Onward.refl (s : Sim) : Onward s s := ⟨rfl, fun _ _ hp => hp⟩

theorem Onward.trans {s s' s'' : Sim} (h : Onward s s') (h' : Onward s' s'') : Onward s s'' :=
  ⟨h'.k.trans h.k, fun i p hp => h'.peers i p (h.peers i p hp)⟩

/-- Only a departure takes a peer away. -/
theorem onward_feed (s : Sim) (i : ℕ) {ev : Event Triple} (hev : ∀ p, ev ≠ .peerGone p) :
    Onward s (s.feed i ev) := by
  refine ⟨rfl, fun j p hp => ?_⟩
  rw [puller_feed]
  split
  · next hj => exact peers_handle (hev p) (hj ▸ hp)
  · exact hp

/-- The invariant of a run: besides, what a puller stores is what its node indexes. -/
structure Kept (policy : Policy) (hwin : 1 ≤ policy.window) (held : ℕ → List Triple) (s : Sim) :
    Prop where
  inv : Inv policy hwin held s
  stored : ∀ i < s.k, ∀ c, c ∈ (s.nodes i).index ↔ c ∈ (s.nodes i).puller.m.got

/-- Storing one triple after the other enters them in the index, and changes no puller. -/
theorem Inv.stores (h : Inv policy hwin held s) (hi : i < s.k) (cs : List Triple)
    (hcs : ∀ c ∈ cs, ∃ j < s.k, c ∈ held j) :
    Inv policy hwin held (cs.foldl (fun s c => s.store i c) s)
      ∧ (cs.foldl (fun s c => s.store i c) s).k = s.k
      ∧ (∀ j, ((cs.foldl (fun s c => s.store i c) s).nodes j).puller = (s.nodes j).puller)
      ∧ ∀ j d, d ∈ ((cs.foldl (fun s c => s.store i c) s).nodes j).index ↔
        d ∈ (s.nodes j).index ∨ j = i ∧ d ∈ cs := by
  induction cs generalizing s with
  | nil => exact ⟨h, rfl, fun _ => rfl, by simp⟩
  | cons c cs ih =>
    obtain ⟨hk, hp, hx⟩ := store_frame s i c
    have hrest := ih (h.store hi (hcs c List.mem_cons_self)) (hk ▸ hi) fun d hd => by
      rw [hk]
      exact hcs d (List.mem_cons_of_mem _ hd)
    rw [List.foldl_cons]
    refine ⟨hrest.1, hrest.2.1.trans hk, fun j => (hrest.2.2.1 j).trans (hp j), fun j d => ?_⟩
    rw [hrest.2.2.2, hx, List.mem_cons]
    grind

/-- A request changes no puller and no index. -/
theorem request_frame (s : Sim) (draws : List Bool) (i : ℕ) (eff : Effect Triple) :
    (s.deliver draws (.req i eff)).k = s.k
      ∧ ∀ j, ((s.deliver draws (.req i eff)).nodes j).puller = (s.nodes j).puller
        ∧ ((s.deliver draws (.req i eff)).nodes j).index = (s.nodes j).index := by
  cases eff with
  | offer p bin start =>
    rw [deliver]
    dsimp only
    split
    · exact ⟨rfl, fun j => ⟨rfl, rfl⟩⟩
    · refine ⟨rfl, fun j => ?_⟩
      rw [nodes_setNode]
      split
      · next hj => rw [hj]; exact ⟨rfl, rfl⟩
      · exact ⟨rfl, rfl⟩
  | _ => exact ⟨rfl, fun j => ⟨rfl, rfl⟩⟩

/-- A message that is delivered keeps the invariant. -/
theorem Kept.deliver {m : Msg} (h : Inv policy hwin held (s.post [m]))
    (hst : ∀ i < s.k, ∀ c, c ∈ (s.nodes i).index ↔ c ∈ (s.nodes i).puller.m.got)
    (draws : List Bool) :
    Kept policy hwin held (s.deliver draws m) ∧ Onward s (s.deliver draws m) := by
  cases m with
  | req i eff =>
    obtain ⟨hk, hframe⟩ := request_frame s draws i eff
    refine ⟨⟨h.request draws, fun j hj c => ?_⟩, hk, fun j p hp => by rwa [(hframe j).1]⟩
    rw [(hframe j).1, (hframe j).2]
    exact hst j (hk ▸ hj) c
  | resp i ev =>
    have hproper := h.proper (.resp i ev) (by simp [post])
    have hev : ∀ p, ev ≠ .peerGone p := by
      rintro p rfl
      exact hproper.elim
    have hi : i < s.k := by
      cases ev with
      | peerGone p => exact hproper.elim
      | tick => exact hproper.elim
      | _ => exact hproper.1
    obtain ⟨hfed, hgot⟩ := h.feed
    obtain ⟨hinv, hk, hp, hx⟩ := hfed.stores hi (delivered ev) fun c hc => h.delivered_known hc
    have hindex : ∀ j, ((s.feed i ev).nodes j).index = (s.nodes j).index := fun j =>
      feed_frame SimNode.index (fun _ _ => rfl) s i j ev
    have hstored : Onward (s.feed i ev) (s.deliver draws (.resp i ev)) :=
      ⟨hk, fun j p hq => by rw [Sim.deliver, hp]; exact hq⟩
    refine ⟨⟨hinv, fun j hj c => ?_⟩, (onward_feed s i hev).trans hstored⟩
    rw [Sim.deliver, hx, hp, hindex]
    have hjs : j < s.k := hk ▸ hj
    by_cases hji : j = i
    · subst hji
      rw [hgot, hst j hjs]
      simp
    · rw [puller_feed, if_neg hji, hst j hjs]
      simp [hji]

theorem Kept.step (h : Kept policy hwin held s) (idx : ℕ) (draws : List Bool) :
    Kept policy hwin held (s.step idx draws) ∧ Onward s (s.step idx draws) := by
  rw [Sim.step]
  split
  · exact ⟨h, .refl s⟩
  · next m hm =>
    obtain ⟨hkept, hon⟩ := Kept.deliver (s := { s with queue := swapRemove s.queue idx })
      (h.inv.take hm) h.stored draws
    exact ⟨hkept, hon.k, hon.peers⟩

/-! ## Uploads -/

/-- The puller that is told of an upload is as sound as it was, and so are the others. -/
theorem Kept.sees_preload (h : Kept policy hwin held s) {c : Triple} (hc : s.Unknown c) {j : ℕ}
    (hj : j < s.k) : ∃ w,
      Sound (setting s.k policy hwin j (Function.update held i (held i ++ [c]) j)) w
        ∧ Met (setting s.k policy hwin j (Function.update held i (held i ++ [c]) j)) w
        ∧ Mirrors (s.preload i c) j w := by
  obtain ⟨w, hs, hm, hw⟩ := h.inv.sees j hj
  by_cases hji : j = i
  · subst hji
    have hlogged : ¬ Logged (setting s.k policy hwin j (held j)) w c := fun hl => by
      obtain ⟨j', hj', -, hx⟩ := (h.inv.logged hw c).mp hl
      exact hc j' hj' hx
    have hnew : c ∉ w.node.m.got := by
      rw [hw.node, ← h.stored j hj c]
      exact hc j hj
    rw [Function.update_self]
    refine ⟨w.upload c, hs.upload hlogged hnew Bool.false_ne_true, fun d p hp => hm d p ?_,
      hw.upload c⟩
    exact (congrFun₂ (w.node.m.preload_frame c).2.2.2.2.1 d p).mp hp
  · rw [Function.update_of_ne hji]
    exact ⟨w, hs, hm, hw.preload_ne hji c⟩

/-- What any node was given it goes on being given. -/
theorem mem_update_append {held : ℕ → List Triple} {i j : ℕ} {c d : Triple} (hd : d ∈ held j) :
    d ∈ Function.update held i (held i ++ [c]) j := by
  by_cases hj : j = i
  · subst hj
    rw [Function.update_self]
    exact List.mem_append_left _ hd
  · rwa [Function.update_of_ne hj]

/-- Being told of an upload that is new to all nodes keeps the invariant. -/
theorem Kept.preload (h : Kept policy hwin held s) {c : Triple} (hc : s.Unknown c) :
    Inv policy hwin (Function.update held i (held i ++ [c])) (s.preload i c) := by
  have hlog := preload_frame SimNode.log (fun _ _ => rfl) s i c
  have hindex := preload_frame SimNode.index (fun _ _ => rfl) s i c
  refine ⟨h.inv.few, fun j hj => h.sees_preload hc hj, fun m hm => ?_, fun j hj => ?_,
    fun j hj => ?_, fun j hj => ?_, fun j hj d hd => ?_, ?_⟩
  · exact (h.inv.proper m hm).mono rfl fun j bin start limit => ⟨limit, by rw [hlog]⟩
  · rw [preload_frame SimNode.parked fun _ _ => rfl]
    simp only [SimNode.head, hlog]
    exact h.inv.parked j hj
  · simp only [hindex, hlog]
    exact h.inv.filed j hj
  · simp only [hlog]
    exact h.inv.binned j hj
  · rw [hindex] at hd
    obtain ⟨j', hj', hd'⟩ := h.inv.known j hj d hd
    exact ⟨j', hj', mem_update_append hd'⟩
  · have hcount : ∀ j, ((s.preload i c).nodes j).puller.m.ndeliv
        = (s.nodes j).puller.m.ndeliv := fun j => by
      rw [Sim.preload, nodes_setNode]
      split
      · next hj =>
        rw [hj]
        exact ((s.nodes i).puller.m.preload_frame c).2.2.2.2.2.2.2.2.2.2.2.2
      · rfl
    simp only [hcount]
    exact h.inv.served

/-- An upload that is new to all nodes keeps the invariant: its node was given it. -/
theorem Kept.arrive (h : Kept policy hwin held s) (hi : i < s.k) {c : Triple} (hc : s.Unknown c) :
    Kept policy hwin (Function.update held i (held i ++ [c])) (s.arrive i c)
      ∧ Onward s (s.arrive i c) := by
  obtain ⟨hk, hp, hx⟩ := store_frame (s.preload i c) i c
  have hkept : Inv policy hwin (Function.update held i (held i ++ [c])) (s.arrive i c) :=
    (h.preload hc).store hi ⟨i, hi, by simp⟩
  refine ⟨⟨hkept, fun j hj d => ?_⟩, hk, fun j p hp' => ?_⟩
  · rw [Sim.arrive, hx, hp, preload_frame SimNode.index fun _ _ => rfl, h.stored j (hk ▸ hj),
      Sim.preload, nodes_setNode]
    by_cases hji : j = i
    · subst hji
      rw [if_pos rfl]
      change _ ↔ d ∈ ((s.nodes j).puller.m.preload c).1.got
      rw [PullState.mem_got_preload]
      tauto
    · rw [if_neg hji]
      simp [hji]
  · rw [Sim.arrive, hp, Sim.preload, nodes_setNode]
    split
    · next hj => exact hj ▸ hp'
    · exact hp'

/-- What lands at a node is added to what it was given. -/
theorem Kept.run (acts : List Act) {held : ℕ → List Triple} {s : Sim}
    (h : Kept policy hwin held s) (hf : s.Fresh acts) :
    Kept policy hwin (fun i => held i ++ arrivalsOf acts i) (s.run acts)
      ∧ Onward s (s.run acts) := by
  induction acts generalizing s held with
  | nil =>
    simp only [arrivalsOf, List.filterMap_nil, List.append_nil]
    exact ⟨h, .refl s⟩
  | cons a acts ih =>
    have hone : Kept policy hwin (fun i => held i ++ arrivalsOf [a] i) (s.act a)
        ∧ Onward s (s.act a) := by
      cases a with
      | arrive i c =>
        obtain ⟨hi, hc⟩ := hf.1 i c rfl
        obtain ⟨hkept, hon⟩ := h.arrive hi hc
        refine ⟨?_, hon⟩
        have hheld : (fun j => held j ++ arrivalsOf [.arrive i c] j)
            = Function.update held i (held i ++ [c]) := funext fun j => by
          by_cases hj : j = i
          · subst hj
            simp [arrivalsOf]
          · simp [arrivalsOf, hj, Ne.symm hj]
        rw [hheld]
        exact hkept
      | step idx draws =>
        obtain ⟨hkept, hon⟩ := h.step idx draws
        refine ⟨?_, hon⟩
        simp only [arrivalsOf, List.filterMap_cons, List.filterMap_nil, List.append_nil]
        exact hkept
    obtain ⟨hrest, hon⟩ := ih hone.1 hf.2
    refine ⟨?_, hone.2.trans hon⟩
    have hheld : (fun i => held i ++ arrivalsOf (a :: acts) i)
        = fun i => (held i ++ arrivalsOf [a] i) ++ arrivalsOf acts i := funext fun i => by
      rw [List.append_assoc, arrivalsOf, ← List.singleton_append, List.filterMap_append]
      rfl
    rw [hheld]
    exact hrest

/-! ## The start -/

/-- Who sees whom when the nodes start. -/
def sights (k : ℕ) : List (ℕ × ℕ) :=
  (List.range k).flatMap fun i => ((List.range k).filter fun j => i ≠ j).map (Prod.mk i)

theorem start_eq (s : Sim) :
    s.start = (sights s.k).foldl (fun s e => s.feed e.1 (.peerSeen (peerId e.2))) s := by
  rw [start, sights, List.foldl_flatMap]
  congr 1
  funext s' i
  rw [List.foldl_map, List.foldl_filter]
  congr 1
  funext s'' j
  by_cases hij : i = j <;> simp [hij]

theorem mem_sights {k : ℕ} {e : ℕ × ℕ} : e ∈ sights k ↔ e.1 < k ∧ e.2 < k ∧ e.1 ≠ e.2 := by
  obtain ⟨i, j⟩ := e
  simp [sights]

/-- A node that sees a peer keeps the invariant. -/
theorem Kept.sees (h : Kept policy hwin held s) {e : ℕ × ℕ} (he : e ∈ sights s.k) :
    Kept policy hwin held (s.feed e.1 (.peerSeen (peerId e.2))) := by
  obtain ⟨hi, hj, hij⟩ := mem_sights.mp he
  have hinv : Inv policy hwin held (s.post [.resp e.1 (.peerSeen (peerId e.2))]) := by
    refine h.inv.reroute rfl (fun _ => rfl) (fun _ => rfl) (fun _ => rfl) (fun j fx _ => ?_)
      (fun m hm => ?_) h.inv.parked ?_
    · rw [outstanding_post]
      simp [Msg.carries, answers]
    · rcases List.mem_append.mp hm with hm | hm
      · exact h.inv.proper m hm
      · rw [List.mem_singleton.mp hm]
        exact ⟨hi, mem_peersOf.mpr ⟨e.2, hj, Ne.symm hij, rfl⟩⟩
    · simp [post, inFlight, delivered]
  obtain ⟨hfed, hgot⟩ := hinv.feed
  refine ⟨hfed, fun j hj c => ?_⟩
  rw [feed_frame SimNode.index (fun _ _ => rfl), h.stored j hj]
  by_cases hji : j = e.1
  · rw [hji, hgot]
    simp [delivered]
  · rw [puller_feed, if_neg hji]

/-- A node that sees a peer has it. -/
theorem mem_peers_sees (s : Sim) (i : ℕ) (p : PeerId) :
    p ∈ ((s.feed i (.peerSeen p)).nodes i).puller.peers := by
  rw [puller_feed, if_pos rfl]
  simp only [handle]
  split
  · next hp => exact ExtTreeSet.mem_iff_contains.mpr hp
  · exact ExtTreeSet.mem_insert_self

/-- Once started, every node has all the others for peers. -/
theorem Kept.start (h : Kept policy hwin held s) :
    Kept policy hwin held s.start ∧ s.start.k = s.k
      ∧ ∀ i < s.k, ∀ p ∈ peersOf s.k i, p ∈ (s.start.nodes i).puller.peers := by
  have hfold : ∀ l : List (ℕ × ℕ), ∀ s' : Sim, (∀ e ∈ l, e ∈ sights s'.k) →
      Kept policy hwin held s' →
      Kept policy hwin held (l.foldl (fun s e => s.feed e.1 (.peerSeen (peerId e.2))) s')
        ∧ Onward s' (l.foldl (fun s e => s.feed e.1 (.peerSeen (peerId e.2))) s')
        ∧ ∀ e ∈ l, peerId e.2 ∈ ((l.foldl (fun s e => s.feed e.1 (.peerSeen (peerId e.2)))
          s').nodes e.1).puller.peers := by
    intro l
    induction l with
    | nil => exact fun s' _ h' => ⟨h', .refl s', by rintro e ⟨⟩⟩
    | cons e l ih =>
      intro s' hl h'
      have hfed := h'.sees (hl e List.mem_cons_self)
      obtain ⟨hkept, hon, hseen⟩ := ih (s'.feed e.1 (.peerSeen (peerId e.2)))
        (fun d hd => hl d (List.mem_cons_of_mem _ hd)) hfed
      refine ⟨hkept, (onward_feed s' e.1 (by simp)).trans hon, fun d hd => ?_⟩
      rcases List.mem_cons.mp hd with rfl | hd
      · exact hon.peers _ _ (mem_peers_sees s' _ _)
      · exact hseen d hd
  obtain ⟨hkept, hon, hseen⟩ := hfold (sights s.k) s (fun _ he => he) h
  rw [start_eq]
  refine ⟨hkept, hon.k, fun i hi p hp => ?_⟩
  obtain ⟨j, hj, hji, rfl⟩ := mem_peersOf.mp hp
  exact hseen (i, j) (mem_sights.mpr ⟨hi, hj, Ne.symm hji⟩)

end

/-! ## Seeding -/

/-- A node that was only seeded. -/
structure Planted (policy : Policy) (held : List Triple) (n : SimNode) : Prop where
  puller : n.puller = Node.start Config.production radius policy held
  parked : n.parked = []
  index : ∀ c, c ∈ n.index ↔ c ∈ held
  filed : ∀ c, c ∈ n.index ↔ ∃ b, (b, c) ∈ (n.log (binOf c)).entries
  binned : ∀ bin b c, (b, c) ∈ (n.log bin).entries → binOf c = bin

/-- Every node was only seeded, and nothing was sent. -/
structure Seeded (k : ℕ) (policy : Policy) (held : ℕ → List Triple) (s : Sim) : Prop where
  k : s.k = k
  queue : s.queue = []
  served : s.served = fun _ => 0
  planted : ∀ i, Planted policy (held i) (s.nodes i)

theorem Seeded.seed {k : ℕ} {policy : Policy} {held : ℕ → List Triple} {s : Sim}
    (h : Seeded k policy held s) (i : ℕ) (c : Triple) :
    Seeded k policy (Function.update held i (held i ++ [c])) (s.seed i c) := by
  have hn := h.planted i
  have hready : (s.nodes i).ready c = [] := by
    rw [SimNode.ready, hn.parked]
    rfl
  obtain ⟨hk, hpuller, -⟩ := store_frame s i c
  have hstore : (s.store i c).queue = s.queue ∧ (s.store i c).served = s.served
      ∧ (∀ j, j ≠ i → (s.store i c).nodes j = s.nodes j)
      ∧ Planted policy (held i ++ [c]) { (s.store i c).nodes i with
        puller := (((s.store i c).nodes i).puller.preload c).1 } := by
    have hstart : (((s.store i c).nodes i).puller.preload c).1
        = Node.start Config.production radius policy (held i ++ [c]) := by
      rw [hpuller, hn.puller, Node.start, Node.start, List.foldl_append]
      rfl
    by_cases hc : c ∈ (s.nodes i).index
    · rw [store_known hc] at hstart ⊢
      refine ⟨rfl, rfl, fun _ _ => rfl, hstart, hn.parked, fun d => ?_, hn.filed, hn.binned⟩
      rw [List.mem_append, ← hn.index d, List.mem_singleton]
      exact (or_iff_left_of_imp (by rintro rfl; exact hc)).symm
    · rw [store_new hc] at hstart ⊢
      rw [hready]
      refine ⟨List.append_nil _, rfl, fun j hj => ?_, ?_⟩
      · rw [nodes_post, nodes_setNode, if_neg hj]
      · rw [nodes_post, nodes_setNode, if_pos rfl] at hstart ⊢
        refine ⟨hstart, ?_, fun d => ?_, SimNode.filed_grow hn.filed c,
          SimNode.binned_grow hn.binned c⟩
        · change (s.nodes i).parked.filter _ = []
          rw [hn.parked, List.filter_nil]
        · rw [List.mem_append, ← hn.index d, List.mem_singleton, or_comm, eq_comm]
          exact SimNode.mem_index_grow _ c d
  refine ⟨hk.trans h.k, hstore.1.trans h.queue, hstore.2.1.trans h.served, fun j => ?_⟩
  rw [Sim.seed, preload, nodes_setNode]
  split
  · next hj =>
    rw [hj, Function.update_self]
    exact hstore.2.2.2
  · next hj =>
    rw [hstore.2.2.1 j hj, Function.update_of_ne hj]
    exact h.planted j

theorem seeded_spec (k : ℕ) (byzantine : List ℕ) (policy : Policy) (spuriousBudget : ℕ)
    (seeds : List (ℕ × Triple)) :
    Seeded k policy (seedsOf seeds) (seeded k byzantine policy spuriousBudget seeds) := by
  induction seeds using List.reverseRecOn with
  | nil =>
    refine ⟨rfl, rfl, rfl, fun i => ⟨rfl, rfl, ?_, ?_, ?_⟩⟩
    · simp [seeded, withPolicy, seedsOf]
    · simp [seeded, withPolicy, SimNode.log, AppendLog.empty]
    · simp [seeded, withPolicy, SimNode.log, AppendLog.empty]
  | append_singleton seeds e ih =>
    have hheld : seedsOf (seeds ++ [e])
        = Function.update (seedsOf seeds) e.1 (seedsOf seeds e.1 ++ [e.2]) := funext fun j => by
      by_cases hj : j = e.1
      · subst hj
        simp [seedsOf]
      · simp [seedsOf, hj, Ne.symm hj]
    rw [hheld, seeded, List.foldl_append]
    exact ih.seed e.1 e.2

/-- A seeded neighbourhood keeps the invariant: every node is a puller that has not started. -/
theorem Seeded.kept {k : ℕ} {policy : Policy} (hwin : 1 ≤ policy.window) {held : ℕ → List Triple}
    {s : Sim} (h : Seeded k policy held s) (hk : k ≤ 256) : Kept policy hwin held s := by
  have hzero : ∀ i, (s.nodes i).puller.m.ndeliv = 0 := fun i => by
    rw [(h.planted i).puller]
    exact (start_machine_frame _ _ _ _).2.2.2.2.2.2
  refine ⟨⟨h.k ▸ hk, fun i hi => ?_, fun m hm => ?_, fun j hj e he => ?_,
    fun i _ => (h.planted i).filed, fun i _ => (h.planted i).binned,
    fun i hi c hc => ⟨i, hi, ((h.planted i).index c).mp hc⟩, ?_⟩, fun i hi c => ?_⟩
  · have hpuller := (h.planted i).puller
    refine ⟨World.init (setting s.k policy hwin i (held i))
      (fun k => (s.nodes k.peer.toNat).log k.bin) 0 0 0, sound_init _ _ _ _ _, fun c p hp => ?_,
      ⟨hpuller.symm, fun _ => rfl, fun fx _ => ?_⟩⟩
    · have hheld := (start_machine_frame Config.production radius policy (held i)).2.2.1
      rw [World.init, World.node, Shell.start] at hp
      change setContains _ c p = true at hp
      rw [show (Node.start Config.production (setting s.k policy hwin i (held i)).radius
        (setting s.k policy hwin i (held i)).policy
        (setting s.k policy hwin i (held i)).held).m.holders = ∅ from hheld] at hp
      simp [setContains] at hp
    · rw [outstanding, h.queue]
      cases fx with
      | offer p b start => simp [parkedFor, (h.planted p.toNat).parked, World.init, World.pending,
          Shell.start]
      | _ => simp [parkedFor, World.init, World.pending, Shell.start]
  · rw [h.queue] at hm
    cases hm
  · rw [(h.planted j).parked] at he
    cases he
  · simp [h.served, h.queue, hzero]
  · rw [(h.planted i).index, (h.planted i).puller, mem_got_start]

/-! ## The end -/

section

variable {policy : Policy} {hwin : 1 ≤ policy.window} {held : ℕ → List Triple} {s : Sim} {i : ℕ}

/-- With no message left, a node that has all the others for peers is told nothing more. -/
theorem Inv.quiescent (h : Inv policy hwin held s) (hq : s.queue = []) (hi : i < s.k)
    (hall : ∀ p ∈ peersOf s.k i, p ∈ (s.nodes i).puller.peers) :
    ∃ w, Sound (setting s.k policy hwin i (held i)) w
      ∧ Quiescent (setting s.k policy hwin i (held i)) w ∧ Mirrors s i w := by
  obtain ⟨w, hs, -, hw⟩ := h.sees i hi
  obtain ⟨ha, hf, hc⟩ := (⟨hs.account, hs.found, hs.covered⟩ : _ ∧ _ ∧ _)
  have hs' : Sound (setting s.k policy hwin i (held i)) { w with unseen := [] } := by
    refine ⟨⟨ha.accounted, ha.cfg, ha.wanted, ha.batches, ha.opens, ha.starts⟩,
      ⟨hf.radius, fun p hp => .inr ?_, hf.asked, hf.listed, hf.keys, hf.opened, hf.paced⟩,
      ⟨hc.tracks, hc.stuck, hc.held, hc.arrived, hc.known, hc.windowed, hc.preloaded, hc.stored,
        hc.rejected⟩, hs.lively, by rintro p ⟨⟩, hs.npre⟩
    rw [show World.node { w with unseen := [] } = (s.nodes i).puller from hw.node]
    exact hall p hp
  have hw' : Mirrors s i { w with unseen := [] } := ⟨hw.node, hw.logs, hw.pending⟩
  have hpend : ∀ fx, (∀ p b upto, fx ≠ .settled p b upto) → fx ∈ w.pending →
      0 < s.parkedFor i fx := fun fx hfx hp => by
    have hpos := (hw.mem_pending hfx).mp hp
    rwa [outstanding, hq, List.countP_nil, Nat.zero_add] at hpos
  refine ⟨_, hs', fun w' hr => ?_, hw'⟩
  cases hr with
  | announce hp => cases hp
  | cursors hp => exact absurd (hpend _ (by simp) hp) (Nat.lt_irrefl 0)
  | fetch hp hperm hbad hmissed => exact absurd (hpend _ (by simp) hp) (Nat.lt_irrefl 0)
  | @offer k start limit hp hpage =>
    -- what is parked starts past the head, and its page is empty
    have hmem : (i, k.bin, start) ∈ (s.nodes k.peer.toNat).parked :=
      List.count_pos_iff.mp (hpend _ (by simp) hp)
    have hkey := (hf.keys _ (hf.mem_logs ha hp)).1
    have hpeer := (toNat_of_mem_peersOf h.few ((Setting.mem_keys _ _).mp hkey).1.1).1
    have hlt := (h.parked _ hpeer _ hmem).2
    obtain ⟨e, he⟩ := List.exists_mem_of_ne_nil _ hpage
    obtain ⟨hin, hle⟩ := AppendLog.mem_of_mem_page he
    have hhead := (w.logs k).le_head hin
    rw [hw.logs] at hhead
    exact absurd (hle.trans hhead) (Nat.not_le_of_lt hlt)

/-- All that the nodes were given. -/
def given (k : ℕ) (held : ℕ → List Triple) : Finset Triple :=
  (Finset.range k).biUnion fun i => (held i).toFinset

theorem mem_given {k : ℕ} {c : Triple} :
    c ∈ given k held ↔ ∃ j < k, c ∈ held j := by
  simp [given]

/-- With no message left, and all the others for its peers, a node indexes all that the nodes were
given, misses nothing, and was delivered once what it was not given. -/
theorem Kept.complete (h : Kept policy hwin held s) (hq : s.queue = []) (hi : i < s.k)
    (hall : ∀ p ∈ peersOf s.k i, p ∈ (s.nodes i).puller.peers) :
    (∀ c, c ∈ (s.nodes i).index ↔ c ∈ given s.k held) ∧ s.deficit i = 0
      ∧ s.deliveries i = (given s.k held \ (held i).toFinset).card := by
  obtain ⟨w, hs, hqu, hw⟩ := h.inv.quiescent hq hi hall
  have hconv := hqu.converged hs
  have hpre : ∀ {j}, j < s.k → ∀ c ∈ held j, c ∈ (s.nodes j).index := fun {j} hj c hc => by
    obtain ⟨w', hs', -, hw'⟩ := h.inv.sees j hj
    rw [h.stored j hj, ← hw'.node]
    exact hs'.covered.preloaded c hc
  have hindex : ∀ c, c ∈ (s.nodes i).index ↔ c ∈ given s.k held := fun c => by
    rw [mem_given]
    refine ⟨h.inv.known i hi c, ?_⟩
    rintro ⟨j, hj, hc⟩
    by_cases hji : j = i
    · exact hpre hi c (hji ▸ hc)
    · have hlogged := (h.inv.logged hw c).mpr ⟨j, hj, hji, hpre hj c hc⟩
      have hset := hqu.settled hs hlogged
      rw [h.stored i hi, ← hw.node]
      exact hset.resolve_right fun hr => Bool.false_ne_true (hs.covered.rejected c hr).1
  refine ⟨hindex, ?_, ?_⟩
  · rw [deficit, ← hw.node]
    exact hconv.deficit
  · have hfloor := hconv.deliveries
    rw [hw.node, size_eq_card fun c => mem_got_start _ _ _ _ c |>.trans List.mem_toFinset.symm,
      size_eq_card fun c => (h.stored i hi c).symm.trans (hindex c)] at hfloor
    have hsub : (held i).toFinset ⊆ given s.k held := fun c hc =>
      mem_given.mpr ⟨i, hi, List.mem_toFinset.mp hc⟩
    rw [Finset.card_sdiff_of_subset hsub, deliveries]
    exact Nat.eq_sub_of_add_eq hfloor

end

/-- Whatever was seeded before the start and landed after it, whoever is faulty, whatever is missed
and however the messages are ordered: once none is left every node indexes all that the nodes were
given and misses nothing, each triple was delivered once to each node that was not given it, and
what was served is what was delivered. -/
theorem replication (k : ℕ) (hk : k ≤ 256) (byzantine : List ℕ) (policy : Policy)
    (hwin : 1 ≤ policy.window) (spuriousBudget : ℕ) (seeds : List (ℕ × Triple))
    (acts : List Act) (hfresh : (seeded k byzantine policy spuriousBudget seeds).start.Fresh acts)
    (hdone : ((seeded k byzantine policy spuriousBudget seeds).start.run acts).queue = []) :
    let s := (seeded k byzantine policy spuriousBudget seeds).start.run acts
    let held := fun i => seedsOf seeds i ++ arrivalsOf acts i
    (∀ i < k, ∀ c, s.nodeHas i c ↔ c ∈ given k held) ∧ (∀ i < k, s.deficit i = 0)
      ∧ ∑ i ∈ Finset.range k, s.deliveries i
        = ∑ i ∈ Finset.range k, (given k held \ (held i).toFinset).card
      ∧ ∑ i ∈ Finset.range k, s.served i = ∑ i ∈ Finset.range k, s.deliveries i := by
  intro s held
  have hseeded := seeded_spec k byzantine policy spuriousBudget seeds
  obtain ⟨hstart, hks, hpeers⟩ := (hseeded.kept hwin hk).start
  obtain ⟨hkept, hon⟩ := hstart.run acts hfresh
  have hkk : s.k = k := (hon.k.trans hks).trans hseeded.k
  rw [hseeded.k] at hpeers
  have hend : ∀ i < k, (∀ c, c ∈ (s.nodes i).index ↔ c ∈ given k held) ∧ s.deficit i = 0
      ∧ s.deliveries i = (given k held \ (held i).toFinset).card := fun i hi => by
    have hall : ∀ p ∈ peersOf s.k i, p ∈ (s.nodes i).puller.peers := fun p hp =>
      hon.peers i p (hpeers i hi p (hkk ▸ hp))
    have hcomplete := hkept.complete hdone (i := i) (hi.trans_eq hkk.symm) hall
    rwa [hkk] at hcomplete
  refine ⟨fun i hi c => ?_, fun i hi => (hend i hi).2.1,
    Finset.sum_congr rfl fun i hi => (hend i (Finset.mem_range.mp hi)).2.2, ?_⟩
  · rw [nodeHas, ← ExtTreeSet.mem_iff_contains]
    exact (hend i hi).1 c
  · have hserved := hkept.inv.served
    rw [hdone, hkk] at hserved
    exact hserved

theorem replication_pair :
    let seeds := [(0, Triple.mock 1), (1, Triple.mock 2)]
    let acts := .step 1 [] :: List.replicate 9 (.step 0 []) ++ .arrive 1 (Triple.mock 3)
      :: List.replicate 25 (.step 0 [true])
    let s := (seeded 2 [] Policy.shipped 1 seeds).start.run acts
    let held := fun i => seedsOf seeds i ++ arrivalsOf acts i
    (∀ i < 2, ∀ c, s.nodeHas i c ↔ c ∈ given 2 held) ∧ (∀ i < 2, s.deficit i = 0)
      ∧ ∑ i ∈ Finset.range 2, s.deliveries i
        = ∑ i ∈ Finset.range 2, (given 2 held \ (held i).toFinset).card
      ∧ ∑ i ∈ Finset.range 2, s.served i = ∑ i ∈ Finset.range 2, s.deliveries i := by
  intro seeds acts
  have hfresh : (seeded 2 [] Policy.shipped 1 seeds).start.Fresh acts := by decide +kernel
  have hdone : ((seeded 2 [] Policy.shipped 1 seeds).start.run acts).queue = [] := by decide +kernel
  exact replication 2 (by decide) [] Policy.shipped (by decide) 1 seeds acts hfresh hdone

end Melissi.Sim
